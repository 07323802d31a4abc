import OpenDB.Storage.InMemoryStorageEngine
import OpenDB.Types.Command

/-!
# The sharded engine

`ShardedStorageEngine` over in-memory engines. A put goes to the shard that the partition policy of
its table picks for the row, and to the shard of the hash of its key when the policy picks none; point
reads and removals always go by the hash of the key, and scans to every shard. Every shard numbers
the rows without a key by itself.

A history of calls leaves placements: the table, key and shard of each of its writes. When every key
is placed where its hash points and keys that compare equal are placed together (`WellRouted`), all
versions of a key are on one shard, which is the one that reads and removals address
(`key_home_of_wellRouted`).
-/

set_option autoImplicit false

namespace OpenDB

open OpenDB.Library InMemory

/-- The shards and the partition policies of the tables. -/
structure ShardedEngine where
  children : List InMemoryEngine
  policies : AssocMap Bytes PartitionPolicy

/-- Calls of the engine, and what the provider does to the policies when it creates a table, drops one
or is opened again. -/
inductive ShardedCall where
  | engine (call : EngineCall)
  | installPartitionPolicy (table : Bytes) (policy : PartitionPolicy)
  | clearPartitionPolicy (table : Bytes)
  | reopen

namespace ShardedEngine

/-- The shards before the first call. -/
def new (n : Nat) : ShardedEngine := ⟨List.replicate n .new, .empty⟩

/-! ## Routing -/

/-- The hash of the encoded bytes. -/
def fnv1a (bytes : Bytes) : UInt64 :=
  bytes.foldl (fun h b => (h ^^^ b.toUInt64) * 1099511628211) 1469598103934665603

/-- `routeByKey` for `n` shards. -/
def routeByKey (n : Nat) (key : Value) : Option Nat :=
  if n = 0 then none
  else if n = 1 then some 0
  else some ((fnv1a key.toBytes).toNat % n)

/-- `routeByPolicy` for `n` shards. -/
def routeByPolicy (n : Nat) (policy : PartitionPolicy) (row : Tuple) : Option Nat :=
  if n = 0 then none
  else
    match row.maybeGet policy.column with
    | none => none
    | some val =>
      match policy.kind with
      | .hash => if policy.shardCount = 0 then none else some ((fnv1a val.toBytes).toNat % n)
      | .range =>
        -- shard `i` covers the values from boundary `i` up to, but without, boundary `i + 1`
        if policy.boundaries.length ≠ n + 1 then none
        else (List.range n).find? fun i => val.operatorGe (policy.boundaries.getD i .null) &&
          val.operatorLt (policy.boundaries.getD (i + 1) .null)
      | .list =>
        if policy.lists.length ≠ n then none
        else (List.range n).find? fun i => (policy.lists.getD i []).any val.operatorEq
      | .none | .other _ => none

/-- A table without a policy of its own. -/
def noPolicy : PartitionPolicy := ⟨.none, [], 0, [], []⟩

def policyFor (s : ShardedEngine) (table : Bytes) : PartitionPolicy :=
  (s.policies.find table).getD noPolicy

/-- The shard that a put goes to. -/
def routePut (s : ShardedEngine) (table : Bytes) (key : Value) (row : Tuple) : Option Nat :=
  (routeByPolicy s.children.length (s.policyFor table) row).or (routeByKey s.children.length key)

theorem routeByKey_lt {n i : Nat} {key : Value} (h : routeByKey n key = some i) : i < n := by
  simp only [routeByKey] at h
  split_ifs at h with hzero hone
  · cases h
    omega
  · rw [← Option.some.inj h]
    exact Nat.mod_lt _ (Nat.pos_of_ne_zero hzero)

theorem routeByPolicy_lt {n i : Nat} {policy : PartitionPolicy} {row : Tuple}
    (h : routeByPolicy n policy row = some i) : i < n := by
  rw [routeByPolicy] at h
  by_cases hzero : n = 0
  · rw [if_pos hzero] at h
    cases h
  rw [if_neg hzero] at h
  cases hval : row.maybeGet policy.column with
  | none =>
    rw [hval] at h
    cases h
  | some val =>
    rw [hval] at h
    cases hkind : policy.kind with
    | none => simp [hkind] at h
    | other code => simp [hkind] at h
    | hash =>
      simp only [hkind] at h
      split_ifs at h
      rw [← Option.some.inj h]
      exact Nat.mod_lt _ (Nat.pos_of_ne_zero hzero)
    | range =>
      simp only [hkind] at h
      split_ifs at h
      exact List.mem_range.1 (List.mem_of_find?_eq_some h)
    | list =>
      simp only [hkind] at h
      split_ifs at h
      exact List.mem_range.1 (List.mem_of_find?_eq_some h)

/-! ## Calls -/

def noShard : DbError := ⟨.notFound, ascii "no shard to route to"⟩

/-- A call to one shard; the routes never point beyond the shards. -/
def onShard (s : ShardedEngine) (i : Nat) (call : EngineCall) : EngineReply × ShardedEngine :=
  match s.children[i]? with
  | none => (.status noShard, s)
  | some e => ((e.exec call).1, { s with children := s.children.set i (e.exec call).2 })

/-- A call to the shards one after another; the first error ends it. -/
def onShards (call : EngineCall) : List InMemoryEngine → EngineReply × List InMemoryEngine
  | [] => (.status .sentinel, [])
  | e :: es =>
    if (e.exec call).1 = .status .sentinel then
      ((onShards call es).1, (e.exec call).2 :: (onShards call es).2)
    else ((e.exec call).1, (e.exec call).2 :: es)

/-- One call of the engine. -/
def exec (s : ShardedEngine) : EngineCall → EngineReply × ShardedEngine
  | .get txn table key =>
    match routeByKey s.children.length key with
    | none => (.row none, s)
    | some i => s.onShard i (.get txn table key)
  | .put txn table key row =>
    match s.routePut table key row with
    | none => (.status noShard, s)
    | some i => s.onShard i (.put txn table key row)
  | .remove txn table key =>
    match routeByKey s.children.length key with
    | none => (.status noShard, s)
    | some i => s.onShard i (.remove txn table key)
  | .scan txn table => (.rows (s.children.map fun e => scan txn table e.store).flatten, s)
  | .commit txn visibleSeq =>
    ((onShards (.commit txn visibleSeq) s.children).1,
      { s with children := (onShards (.commit txn visibleSeq) s.children).2 })
  | .commitNext txn =>
    ((onShards (.commitNext txn) s.children).1,
      { s with children := (onShards (.commitNext txn) s.children).2 })
  | .abort txn =>
    (.status .sentinel, { s with children := s.children.map fun e => (e.exec (.abort txn)).2 })

/-- The engine after one step of a history. A provider that is opened again has an engine without
policies, into which it installs those that the shards have kept. -/
def step (s : ShardedEngine) : ShardedCall → ShardedEngine
  | .engine call => (s.exec call).2
  | .installPartitionPolicy table policy => { s with policies := s.policies.assign table policy }
  | .clearPartitionPolicy table => { s with policies := s.policies.erase table }
  | .reopen => { s with policies := .empty }

def after (s : ShardedEngine) (calls : List ShardedCall) : ShardedEngine := calls.foldl .step s

/-! ## Placements -/

/-- A key of a table, written to a shard. -/
structure Placement where
  table : Bytes
  key : Value
  shard : Nat
  deriving DecidableEq

/-- The key under which a shard files a row: a null key is replaced by the next number of the shard. -/
def effectiveKey (e : InMemoryEngine) (table : Bytes) (key : Value) : Value :=
  if key.isNull then .int64 ((e.store.autoId.find table).getD 0 + 1).toInt64 else key

/-- Where a put goes. -/
def putOf (s : ShardedEngine) : ShardedCall → Option Placement
  | .engine (.put _ table key row) =>
    match s.routePut table key row with
    | none => none
    | some i => s.children[i]?.map fun e => ⟨table, effectiveKey e table key, i⟩
  | _ => none

/-- Where a put or a removal goes. -/
def writeOf (s : ShardedEngine) : ShardedCall → Option Placement
  | .engine (.remove _ table key) =>
    (routeByKey s.children.length key).map fun i => ⟨table, key, i⟩
  | call => s.putOf call

/-- The placements of a history. -/
def placements (s : ShardedEngine) : List ShardedCall → List Placement
  | [] => []
  | call :: calls => (s.writeOf call).toList ++ (s.step call).placements calls

/-- The shard of the last put of a key. -/
def lastPut (s : ShardedEngine) (table : Bytes) (key : Value) : List ShardedCall → Option Nat
  | [] => none
  | call :: calls =>
    ((s.step call).lastPut table key calls).or
      (((s.putOf call).filter fun p => p.table = table ∧ p.key = key).map Placement.shard)

/-! ## The home of a key -/

/-- What the shards show a reader of a key: the row of the first shard that shows one. -/
def shows (s : ShardedEngine) (txn : UInt64) (table : Bytes) (r : Rank) : Option Tuple :=
  s.children.findSome? fun e => visibleRow e.store.visibleSeq txn (chainAt (rowsOf e.store table) r)

/-- Every key has its versions on one shard, which is the one that its last put went to and that reads
and removals address, and a scan emits every key once. -/
structure KeyHome (s : ShardedEngine) (calls : List ShardedCall) : Prop where
  single : ∀ (txn : UInt64) (table : Bytes) (r : Rank) (i j : Nat) (e e' : InMemoryEngine),
    (s.after calls).children[i]? = some e → (s.after calls).children[j]? = some e' →
    (∃ v ∈ chainAt (rowsOf e.store table) r, isVisible e.store.visibleSeq txn v = true) →
    (∃ v ∈ chainAt (rowsOf e'.store table) r, isVisible e'.store.visibleSeq txn v = true) → i = j
  addressed : ∀ table key i, s.lastPut table key calls = some i →
    routeByKey (s.after calls).children.length key = some i
  scanned : ∀ txn table, ∃ keys : List Rank, keys.Nodup ∧
    (∀ r, r ∈ keys ↔ ((s.after calls).shows txn table r).isSome = true) ∧
    ((s.after calls).children.map fun e => scan txn table e.store).flatten.map some =
      keys.map ((s.after calls).shows txn table)

/-- Every key is written where its hash points, keys that compare equal are written to one shard, and
no key is a NaN. -/
structure WellRouted (s : ShardedEngine) (calls : List ShardedCall) : Prop where
  numbers : ∀ p ∈ s.placements calls, p.key.isNaN = false
  home : ∀ p ∈ s.placements calls, routeByKey s.children.length p.key = some p.shard
  alike : ∀ p ∈ s.placements calls, ∀ q ∈ s.placements calls, p.table = q.table →
    p.key.rank = q.key.rank →
      routeByKey s.children.length p.key = routeByKey s.children.length q.key

/-! ## One shard -/

/-- The table and key that a call writes on a shard. -/
def writeKey (e : InMemoryEngine) : EngineCall → Option (Bytes × Value)
  | .put _ table key _ => some (table, effectiveKey e table key)
  | .remove _ table key => some (table, key)
  | _ => none

section

variable {e : InMemoryEngine} {call : EngineCall}

theorem put_eq_pushRow (txn : UInt64) (table : Bytes) (key : Value) (row : Tuple)
    (e : InMemoryEngine) : ∃ v s', (∀ t, rowsOf s' t = rowsOf e.store t) ∧
      put txn table key row e.store = pushRow table (effectiveKey e table key) v s' := by
  rw [put, effectiveKey]
  split_ifs
  · -- only the numbers of the table change beside the row
    let next := (e.store.autoId.find table).getD 0 + 1
    exact ⟨⟨0, txn, row.set (ascii "_id") (.int64 next.toInt64), false⟩,
      { e.store with autoId := e.store.autoId.assign table next }, fun _ => rfl, rfl⟩
  · exact ⟨_, e.store, fun _ => rfl, rfl⟩

theorem ordered_pushRow {s s' : InMemoryStore} {table : Bytes} {key : Value} {v : Version}
    (h : ∀ t, OrderedRows (rowsOf s t)) (hrows : ∀ t, rowsOf s' t = rowsOf s t)
    (hkey : key.isNaN = false) (t : Bytes) : OrderedRows (rowsOf (pushRow table key v s') t) := by
  rw [rowsOf_pushRow]
  split_ifs
  · rw [hrows]
    exact (h table).push hkey
  · rw [hrows]
    exact h t

theorem ordered_exec (h : ∀ t, OrderedRows (rowsOf e.store t))
    (hkey : ∀ p, writeKey e call = some p → p.2.isNaN = false) (t : Bytes) :
    OrderedRows (rowsOf (e.exec call).2.store t) := by
  cases call with
  | get txn table key => exact h t
  | scan txn table => exact h t
  | put txn table key row =>
    obtain ⟨v, s', hrows, hput⟩ := put_eq_pushRow txn table key row e
    simp only [InMemoryEngine.exec, hput]
    exact ordered_pushRow h hrows (hkey _ rfl) t
  | remove txn table key => exact ordered_pushRow h (fun _ => rfl) (hkey _ rfl) t
  | commit txn seq =>
    simp only [InMemoryEngine.exec, rowsOf_commit]
    exact (h t).stamp _ _
  | commitNext txn =>
    simp only [InMemoryEngine.exec, rowsOf_commit]
    exact (h t).stamp _ _
  | abort txn =>
    simp only [InMemoryEngine.exec, rowsOf_abort]
    exact (h t).unstage _

theorem chain_pushRow {s s' : InMemoryStore} {table : Bytes} {key : Value} {v : Version}
    (h : ∀ t, OrderedRows (rowsOf s t)) (hrows : ∀ t, rowsOf s' t = rowsOf s t)
    (hkey : key.isNaN = false) {t : Bytes} {r : Rank}
    (hchain : chainAt (rowsOf (pushRow table key v s') t) r ≠ []) :
    chainAt (rowsOf s t) r ≠ [] ∨ (t = table ∧ r = key.rank) := by
  rw [rowsOf_pushRow] at hchain
  split_ifs at hchain with ht
  · rw [hrows, chainAt_push (h table) hkey] at hchain
    split_ifs at hchain with hr
    · exact Or.inr ⟨ht, hr⟩
    · exact Or.inl (ht ▸ hchain)
  · rw [hrows] at hchain
    exact Or.inl hchain

/-- A chain is there already or it is the one of the key written. -/
theorem chain_exec (h : ∀ t, OrderedRows (rowsOf e.store t))
    (hkey : ∀ p, writeKey e call = some p → p.2.isNaN = false) {t : Bytes} {r : Rank}
    (hchain : chainAt (rowsOf (e.exec call).2.store t) r ≠ []) :
    chainAt (rowsOf e.store t) r ≠ [] ∨ ∃ k, writeKey e call = some (t, k) ∧ k.rank = r := by
  cases call with
  | get txn table key => exact Or.inl hchain
  | scan txn table => exact Or.inl hchain
  | put txn table key row =>
    obtain ⟨v, s', hrows, hput⟩ := put_eq_pushRow txn table key row e
    simp only [InMemoryEngine.exec, hput] at hchain
    rcases chain_pushRow h hrows (hkey _ rfl) hchain with hold | ⟨rfl, rfl⟩
    · exact Or.inl hold
    · exact Or.inr ⟨_, rfl, rfl⟩
  | remove txn table key =>
    rcases chain_pushRow h (fun _ => rfl) (hkey _ rfl) hchain with hold | ⟨rfl, rfl⟩
    · exact Or.inl hold
    · exact Or.inr ⟨_, rfl, rfl⟩
  | commit txn seq =>
    simp only [InMemoryEngine.exec, rowsOf_commit, chainAt_stampRows, ne_eq, List.map_eq_nil_iff]
      at hchain
    exact Or.inl hchain
  | commitNext txn =>
    simp only [InMemoryEngine.exec, rowsOf_commit, chainAt_stampRows, ne_eq, List.map_eq_nil_iff]
      at hchain
    exact Or.inl hchain
  | abort txn =>
    simp only [InMemoryEngine.exec, rowsOf_abort, chainAt_unstageRows (h t)] at hchain
    exact Or.inl fun hnil => hchain (by rw [hnil]; rfl)

end

/-! ## All shards -/

/-- Every chain is on a shard that its key has been placed on. -/
structure Homed (s : ShardedEngine) (P : List Placement) : Prop where
  ordered : ∀ (i : Nat) (e : InMemoryEngine), s.children[i]? = some e →
    ∀ t, OrderedRows (rowsOf e.store t)
  placed : ∀ (i : Nat) (e : InMemoryEngine), s.children[i]? = some e →
    ∀ t r, chainAt (rowsOf e.store t) r ≠ [] → ∃ p ∈ P, p.table = t ∧ p.key.rank = r ∧ p.shard = i

section

variable {s : ShardedEngine} {P P' : List Placement} {call : EngineCall}

theorem Homed.new (n : Nat) : Homed (new n) [] := by
  have hchild : ∀ {i : Nat} {e : InMemoryEngine}, (ShardedEngine.new n).children[i]? = some e →
      e = InMemoryEngine.new := by
    intro i e he
    exact List.eq_of_mem_replicate (List.mem_of_getElem? he)
  constructor
  · intro i e he t
    rw [hchild he]
    exact ⟨fun _ hx => (List.not_mem_nil hx).elim, List.Pairwise.nil⟩
  · intro i e he t r hchain
    rw [hchild he] at hchain
    exact absurd rfl hchain

theorem Homed.mono (h : Homed s P) (hsub : ∀ p ∈ P, p ∈ P') : Homed s P' := by
  refine ⟨h.ordered, fun i e he t r hr => ?_⟩
  obtain ⟨p, hp, hrest⟩ := h.placed i e he t r hr
  exact ⟨p, hsub p hp, hrest⟩

theorem Homed.onShard (h : Homed s P) {i : Nat} (hsub : ∀ p ∈ P, p ∈ P')
    (hkey : ∀ e, s.children[i]? = some e → ∀ p, writeKey e call = some p → p.2.isNaN = false)
    (hnew : ∀ e, s.children[i]? = some e → ∀ t k, writeKey e call = some (t, k) →
      ∃ p ∈ P', p.table = t ∧ p.key.rank = k.rank ∧ p.shard = i) :
    Homed (s.onShard i call).2 P' := by
  rw [ShardedEngine.onShard]
  cases hchild : s.children[i]? with
  | none => exact h.mono hsub
  | some e =>
    have hord := h.ordered i e hchild
    constructor
    · intro j e' he' t
      rw [List.getElem?_set] at he'
      split_ifs at he' with hij hlt
      · cases he'
        exact ordered_exec hord (hkey e hchild) t
      · exact h.ordered j e' he' t
    · intro j e' he' t r hr
      rw [List.getElem?_set] at he'
      split_ifs at he' with hij hlt
      · cases he'
        subst hij
        rcases chain_exec hord (hkey e hchild) hr with hold | ⟨k, hwrite, rfl⟩
        · obtain ⟨p, hp, hrest⟩ := h.placed i e hchild t r hold
          exact ⟨p, hsub p hp, hrest⟩
        · exact hnew e hchild t k hwrite
      · obtain ⟨p, hp, hrest⟩ := h.placed j e' he' t r hr
        exact ⟨p, hsub p hp, hrest⟩

/-- A call that writes no key, to every shard. -/
theorem Homed.map (h : Homed s P) (hwrite : ∀ e, writeKey e call = none) :
    Homed { s with children := s.children.map fun e => (e.exec call).2 } P := by
  have hnone : ∀ e p, writeKey e call = some p → p.2.isNaN = false := by
    intro e p hp
    rw [hwrite e] at hp
    cases hp
  constructor
  · intro i e he t
    obtain ⟨e₀, he₀, rfl⟩ := Option.map_eq_some_iff.1 ((List.getElem?_map ..).symm.trans he)
    exact ordered_exec (h.ordered i e₀ he₀) (hnone e₀) t
  · intro i e he t r hr
    obtain ⟨e₀, he₀, rfl⟩ := Option.map_eq_some_iff.1 ((List.getElem?_map ..).symm.trans he)
    rcases chain_exec (h.ordered i e₀ he₀) (hnone e₀) hr with hold | ⟨k, hk, -⟩
    · exact h.placed i e₀ he₀ t r hold
    · rw [hwrite e₀] at hk
      cases hk

/-- The shards never report an error, so a commit reaches all of them. -/
theorem onShards_eq (hreply : ∀ e : InMemoryEngine, (e.exec call).1 = .status .sentinel)
    (es : List InMemoryEngine) :
    onShards call es = (.status .sentinel, es.map fun e => (e.exec call).2) := by
  induction es with
  | nil => rfl
  | cons e es ih =>
    rw [onShards, if_pos (hreply e), ih]
    rfl

theorem exec_commit (s : ShardedEngine) (txn seq : UInt64) :
    (s.exec (.commit txn seq)).2 =
      { s with children := s.children.map fun e => (e.exec (.commit txn seq)).2 } := by
  rw [exec, onShards_eq fun _ => rfl]

theorem exec_commitNext (s : ShardedEngine) (txn : UInt64) :
    (s.exec (.commitNext txn)).2 =
      { s with children := s.children.map fun e => (e.exec (.commitNext txn)).2 } := by
  rw [exec, onShards_eq fun _ => rfl]

theorem length_onShard (s : ShardedEngine) (i : Nat) (call : EngineCall) :
    (s.onShard i call).2.children.length = s.children.length := by
  rw [ShardedEngine.onShard]
  cases s.children[i]? with
  | none => rfl
  | some e => exact List.length_set

theorem length_step (s : ShardedEngine) (call : ShardedCall) :
    (s.step call).children.length = s.children.length := by
  cases call with
  | engine call =>
    cases call with
    | get txn table key =>
      simp only [step, exec]
      cases routeByKey s.children.length key with
      | none => rfl
      | some i => exact length_onShard s i _
    | put txn table key row =>
      simp only [step, exec]
      cases s.routePut table key row with
      | none => rfl
      | some i => exact length_onShard s i _
    | remove txn table key =>
      simp only [step, exec]
      cases routeByKey s.children.length key with
      | none => rfl
      | some i => exact length_onShard s i _
    | scan txn table => rfl
    | commit txn seq =>
      rw [step, exec_commit]
      exact List.length_map _
    | commitNext txn =>
      rw [step, exec_commitNext]
      exact List.length_map _
    | abort txn => exact List.length_map _
  | _ => rfl

theorem length_after (s : ShardedEngine) (calls : List ShardedCall) :
    (s.after calls).children.length = s.children.length := by
  induction calls generalizing s with
  | nil => rfl
  | cons call calls ih => exact (ih (s.step call)).trans (length_step s call)

/-- One step: what is new is where the step placed it. -/
theorem Homed.step {c : ShardedCall} (h : Homed s P)
    (hkey : ∀ p, s.writeOf c = some p → p.key.isNaN = false) :
    Homed (s.step c) (P ++ (s.writeOf c).toList) := by
  have hold : ∀ p ∈ P, p ∈ P ++ (s.writeOf c).toList := fun p hp => List.mem_append_left _ hp
  have hnew : ∀ {p}, s.writeOf c = some p → p ∈ P ++ (s.writeOf c).toList := by
    intro p hp
    rw [hp]
    exact List.mem_append_right _ List.mem_cons_self
  cases c with
  | engine call =>
    cases call with
    | get txn table key =>
      simp only [ShardedEngine.step, exec]
      cases routeByKey s.children.length key with
      | none => exact h.mono hold
      | some i =>
        refine h.onShard hold (fun e _ p hp => ?_) fun e _ t k hk => ?_
        · cases hp
        · cases hk
    | put txn table key row =>
      simp only [ShardedEngine.step, exec]
      cases hroute : s.routePut table key row with
      | none => exact h.mono hold
      | some i =>
        have hwrite : ∀ e, s.children[i]? = some e →
            s.writeOf (.engine (.put txn table key row)) =
              some ⟨table, effectiveKey e table key, i⟩ := by
          intro e he
          simp only [writeOf, putOf, hroute, he, Option.map_some]
        refine h.onShard hold (fun e he p hp => ?_) fun e he t k hk => ?_
        · cases hp
          exact hkey _ (hwrite e he)
        · cases hk
          exact ⟨_, hnew (hwrite e he), rfl, rfl, rfl⟩
    -- a removal leaves a tombstone, which is written where its key is routed
    | remove txn table key =>
      simp only [ShardedEngine.step, exec]
      cases hroute : routeByKey s.children.length key with
      | none => exact h.mono hold
      | some i =>
        have hwrite : s.writeOf (.engine (.remove txn table key)) = some ⟨table, key, i⟩ := by
          simp only [writeOf, hroute, Option.map_some]
        refine h.onShard hold (fun e he p hp => ?_) fun e he t k hk => ?_
        · cases hp
          exact hkey _ hwrite
        · cases hk
          exact ⟨_, hnew hwrite, rfl, rfl, rfl⟩
    | scan txn table => exact h.mono hold
    | commit txn seq =>
      rw [ShardedEngine.step, exec_commit]
      exact (h.map fun _ => rfl).mono hold
    | commitNext txn =>
      rw [ShardedEngine.step, exec_commitNext]
      exact (h.map fun _ => rfl).mono hold
    | abort txn =>
      have hmap : Homed { s with children := s.children.map fun e => (e.exec (.abort txn)).2 } P :=
        h.map fun _ => rfl
      exact hmap.mono hold
  | installPartitionPolicy table policy => exact Homed.mono ⟨h.ordered, h.placed⟩ hold
  | clearPartitionPolicy table => exact Homed.mono ⟨h.ordered, h.placed⟩ hold
  | reopen => exact Homed.mono ⟨h.ordered, h.placed⟩ hold

/-- A whole history. -/
theorem Homed.after {calls : List ShardedCall} (h : Homed s P)
    (hkeys : ∀ p ∈ s.placements calls, p.key.isNaN = false) :
    Homed (s.after calls) (P ++ s.placements calls) := by
  induction calls generalizing s P with
  | nil =>
    rw [placements, List.append_nil]
    exact h
  | cons call calls ih =>
    rw [placements, ← List.append_assoc]
    refine ih (h.step fun p hp => hkeys p ?_) fun p hp => hkeys p ?_
    · rw [placements, hp]
      exact List.mem_append_left _ List.mem_cons_self
    · exact List.mem_append_right _ hp

end

/-! ## Histories -/

/-- The last put of a key is one of the placements. -/
theorem exists_of_lastPut {s : ShardedEngine} {table : Bytes} {key : Value} {i : Nat}
    {calls : List ShardedCall} (h : s.lastPut table key calls = some i) :
    ⟨table, key, i⟩ ∈ s.placements calls := by
  induction calls generalizing s with
  | nil => cases h
  | cons call calls ih =>
    rw [lastPut] at h
    rw [placements]
    cases hrest : (s.step call).lastPut table key calls with
    | some j =>
      rw [hrest, Option.some_or] at h
      cases h
      exact List.mem_append_right _ (ih hrest)
    | none =>
      rw [hrest, Option.none_or, Option.map_eq_some_iff] at h
      obtain ⟨p, hp, rfl⟩ := h
      obtain ⟨hput, hmatch⟩ := Option.filter_eq_some_iff.1 hp
      obtain ⟨rfl, rfl⟩ := of_decide_eq_true hmatch
      have hwrite : s.writeOf call = some p := by
        cases call with
        | engine c =>
          cases c with
          | put txn table key row => exact hput
          | _ => cases hput
        | _ => cases hput
      rw [hwrite]
      exact List.mem_append_left _ List.mem_cons_self

theorem WellRouted.of_prefix {s : ShardedEngine} {before calls : List ShardedCall}
    (h : WellRouted s calls) (hbefore : before <+: calls) : WellRouted s before := by
  obtain ⟨rest, rfl⟩ := hbefore
  have hsub : ∀ (s : ShardedEngine) (before : List ShardedCall),
      ∀ p ∈ s.placements before, p ∈ s.placements (before ++ rest) := by
    intro s before
    induction before generalizing s with
    | nil => exact fun p hp => (List.not_mem_nil hp).elim
    | cons call before ih =>
      intro p hp
      rcases List.mem_append.1 hp with hp | hp
      · exact List.mem_append_left _ hp
      · exact List.mem_append_right _ (ih _ p hp)
  have hin := hsub s before
  exact ⟨fun p hp => h.numbers p (hin p hp), fun p hp => h.home p (hin p hp),
    fun p hp q hq => h.alike p (hin p hp) q (hin q hq)⟩

/-- Shards without a common key are scanned one after another without repeating a key. -/
theorem exists_keys_of_scans {es : List InMemoryEngine} {table : Bytes} (txn : UInt64)
    (hord : ∀ e ∈ es, OrderedRows (rowsOf e.store table))
    (hapart : es.Pairwise fun e e' => ∀ r, chainAt (rowsOf e.store table) r ≠ [] →
      chainAt (rowsOf e'.store table) r = []) :
    ∃ keys : List Rank, keys.Nodup ∧
      (∀ r, r ∈ keys ↔ (es.findSome? fun e => visibleRow e.store.visibleSeq txn
        (chainAt (rowsOf e.store table) r)).isSome = true) ∧
      (es.map fun e => scan txn table e.store).flatten.map some =
        keys.map fun r => es.findSome? fun e => visibleRow e.store.visibleSeq txn
          (chainAt (rowsOf e.store table) r) := by
  induction es with
  | nil => exact ⟨[], List.nodup_nil, fun r => by simp, rfl⟩
  | cons e es ih =>
    rw [List.pairwise_cons] at hapart
    obtain ⟨keys, hsorted, hmem, hscan⟩ := exists_keys_of_scan (hord e List.mem_cons_self) txn
    obtain ⟨rest, hnodup, hmem', hscan'⟩ := ih (fun x hx => hord x (List.mem_cons_of_mem _ hx)) hapart.2
    -- a key that this shard shows is on none of the others
    have hothers : ∀ r, chainAt (rowsOf e.store table) r ≠ [] →
        (es.findSome? fun e => visibleRow e.store.visibleSeq txn
          (chainAt (rowsOf e.store table) r)) = none := by
      intro r hr
      rw [List.findSome?_eq_none_iff]
      intro e' he'
      rw [hapart.1 e' he' r hr, visibleRow_nil]
    have hempty : ∀ r ∈ rest, chainAt (rowsOf e.store table) r = [] := by
      intro r hr
      by_contra hne
      have hsome := (hmem' r).1 hr
      rw [hothers r hne] at hsome
      cases hsome
    have hown : ∀ r ∈ keys, chainAt (rowsOf e.store table) r ≠ [] := by
      intro r hr hnil
      have hsome := (hmem r).1 hr
      rw [hnil, visibleRow_nil] at hsome
      cases hsome
    refine ⟨keys ++ rest, ?_, fun r => ?_, ?_⟩
    · rw [List.nodup_append]
      refine ⟨hsorted.imp fun h => h.ne, hnodup, ?_⟩
      rintro r hr r' hr' rfl
      exact hown r hr (hempty r hr')
    · rw [List.mem_append, hmem, hmem', List.findSome?_cons]
      cases visibleRow e.store.visibleSeq txn (chainAt (rowsOf e.store table) r) with
      | none => simp
      | some row => simp
    · rw [List.map_cons, List.flatten_cons, List.map_append, List.map_append, hscan, hscan']
      congr 1
      · apply List.map_congr_left
        intro r hr
        obtain ⟨row, hrow⟩ := Option.isSome_iff_exists.1 ((hmem r).1 hr)
        rw [List.findSome?_cons, hrow]
      · apply List.map_congr_left
        intro r hr
        rw [List.findSome?_cons, hempty r hr, visibleRow_nil]

/-- In a well-routed history, at every point of it, every key has its home. -/
theorem key_home_of_wellRouted {n : Nat} {calls before : List ShardedCall}
    (h : WellRouted (new n) calls) (hbefore : before <+: calls) : KeyHome (new n) before := by
  have hw := h.of_prefix hbefore
  have hhomed := (Homed.new n).after hw.numbers
  rw [List.nil_append] at hhomed
  -- two shards with a chain of one key are the same shard
  have hsame : ∀ table r (i j : Nat) (e e' : InMemoryEngine),
      ((new n).after before).children[i]? = some e → ((new n).after before).children[j]? = some e' →
      chainAt (rowsOf e.store table) r ≠ [] → chainAt (rowsOf e'.store table) r ≠ [] → i = j := by
    intro table r i j e e' he he' hr hr'
    obtain ⟨p, hp, hpt, hpr, hpi⟩ := hhomed.placed i e he table r hr
    obtain ⟨q, hq, hqt, hqr, hqj⟩ := hhomed.placed j e' he' table r hr'
    have hroute := hw.alike p hp q hq (hpt.trans hqt.symm) (hpr.trans hqr.symm)
    rw [hw.home p hp, hw.home q hq] at hroute
    exact hpi.symm.trans ((Option.some.inj hroute).trans hqj)
  constructor
  · rintro txn table r i j e e' he he' ⟨v, hv, -⟩ ⟨v', hv', -⟩
    exact hsame table r i j e e' he he' (List.ne_nil_of_mem hv) (List.ne_nil_of_mem hv')
  · intro table key i hlast
    rw [length_after]
    exact hw.home _ (exists_of_lastPut hlast)
  · intro txn table
    apply exists_keys_of_scans
    · intro e he
      obtain ⟨i, hi⟩ := List.getElem?_of_mem he
      exact hhomed.ordered i e hi table
    · rw [List.pairwise_iff_getElem]
      intro i j hi hj hij r hr
      by_contra hr'
      have heq := hsame table r i j _ _ (List.getElem?_eq_getElem hi) (List.getElem?_eq_getElem hj) hr hr'
      omega

/-- A row with one column. -/
def oneColumn (name : Bytes) (value : Value) : Tuple := ⟨[⟨name, value⟩], List.nodup_singleton _⟩

/-- The row of a key in a table that is partitioned by its hash. -/
def keyedRow (key : Value) (n : Int64) : Tuple :=
  (oneColumn (ascii "id") key).set (ascii "n") (.int64 n)

/-- Rows on both shards; one of them is updated, and the other is removed. -/
def hashedByKey : List ShardedCall :=
  [.installPartitionPolicy (ascii "t") ⟨.hash, ascii "id", 2, [], []⟩,
    .engine (.put 1 (ascii "t") (.boolean true) (keyedRow (.boolean true) 1)),
    .engine (.put 1 (ascii "t") (.boolean false) (keyedRow (.boolean false) 1)),
    .engine (.commit 1 1),
    .engine (.put 2 (ascii "t") (.boolean true) (keyedRow (.boolean true) 2)),
    .engine (.commit 2 2),
    .engine (.remove 3 (ascii "t") (.boolean false)),
    .engine (.commit 3 3)]

theorem hashedByKey_home : WellRouted (new 2) hashedByKey ∧
    ((new 2).placements hashedByKey).map Placement.shard = [1, 0, 1, 0] ∧
    KeyHome (new 2) hashedByKey ∧ KeyHome (new 2) (hashedByKey.take 6) ∧
    (((new 2).after hashedByKey).exec (.scan 4 (ascii "t"))).1 = .rows [keyedRow (.boolean true) 2] := by
  have hplaced : (new 2).placements hashedByKey = [⟨ascii "t", .boolean true, 1⟩,
      ⟨ascii "t", .boolean false, 0⟩, ⟨ascii "t", .boolean true, 1⟩, ⟨ascii "t", .boolean false, 0⟩] := by
    decide +kernel
  have h : WellRouted (new 2) hashedByKey := by
    constructor
    · rw [hplaced]
      decide
    · rw [hplaced]
      decide +kernel
    · rw [hplaced]
      decide +kernel
  refine ⟨h, ?_, key_home_of_wellRouted h (List.prefix_refl _),
    key_home_of_wellRouted h (List.take_prefix 6 _), by decide +kernel⟩
  rw [hplaced]
  rfl

/-- A table that is partitioned by a list, and a row that an update moves to another partition. -/
def movedRow : List ShardedCall :=
  [.installPartitionPolicy (ascii "t")
      ⟨.list, ascii "league", 2, [], [[.text (ascii "ALPHA")], [.text (ascii "BETA")]]⟩,
    .engine (.put 1 (ascii "t") (.boolean false) (oneColumn (ascii "league") (.text (ascii "ALPHA")))),
    .engine (.commit 1 1),
    .engine (.put 2 (ascii "t") (.boolean false) (oneColumn (ascii "league") (.text (ascii "BETA")))),
    .engine (.commit 2 2)]

/-- The update goes to the second shard, but reads address the first, which still shows the old row;
a scan emits both. -/
theorem movedRow_without_home : ¬ KeyHome (new 2) movedRow ∧
    (((new 2).after movedRow).exec (.scan 3 (ascii "t"))).1 =
      .rows [oneColumn (ascii "league") (.text (ascii "ALPHA")),
        oneColumn (ascii "league") (.text (ascii "BETA"))] := by
  constructor
  · intro h
    have hlast : (new 2).lastPut (ascii "t") (.boolean false) movedRow = some 1 := by decide +kernel
    have haddress := h.addressed _ _ _ hlast
    have hfirst : routeByKey ((new 2).after movedRow).children.length (.boolean false) = some 0 := by
      decide +kernel
    rw [hfirst] at haddress
    cases haddress
  · decide +kernel

end ShardedEngine

end OpenDB
