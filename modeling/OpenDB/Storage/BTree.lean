import OpenDB.Storage.Node
import Mathlib.Data.List.Sort

/-!
# The B+tree

The MVCC B+tree of one table, as the code has it: descent by separators, ordered insertion into a
leaf, leaf and internal splits, the walk for a parent, the two scans over the leaf chain, and the
release of all pages. A tree is a pager and a root page; reads leave both alone and writes keep what
they have written when they throw.

The loops of the source that follow page pointers have no bound of their own. Here each carries
fuel, and running out of it is the fault `nontermination`: a descent or a chain walk that visits more
pages than the file has visits one twice, and then it never ends.
-/

set_option autoImplicit false

namespace OpenDB

open OpenDB.Library

/-- A tree: the shared pager and the page of the root. -/
structure BTree where
  pager : Pager
  rootPageId : PageId

/-- `LookupResult`. -/
structure LookupResult where
  found : Bool
  commitSeq : UInt64
  txnId : UInt64
  tombstone : Bool
  payload : Tuple
  deriving DecidableEq

namespace LookupResult

/-- The default: nothing found. -/
def none : LookupResult := ⟨false, 0, 0, false, Tuple.empty⟩

/-- The version a lookup stops at. -/
def ofEntry (e : LeafEntry) : LookupResult :=
  ⟨true, e.commitSeq, e.txnId, e.tombstone, e.payload⟩

/-- What a lookup returns for the version it stops at, if any. -/
def ofOption : Option LeafEntry → LookupResult
  | some e => ofEntry e
  | .none => none

end LookupResult

namespace BTree

/-! ## Nodes on pages -/

/-- A pager call of the tree. -/
def onPager {α : Type} (x : EStateM Fault Pager α) : EStateM Fault BTree α := fun t =>
  match x.run t.pager with
  | .ok a p => .ok a { t with pager := p }
  | .error e p => .error e { t with pager := p }

/-- `loadNode`. -/
def loadNode (p : Pager) (id : PageId) : Except Fault Node :=
  match p.readPage id with
  | none =>
    .error (.runtimeError (ascii ("BTree::loadNode: failed to read page " ++ toString id.toNat)))
  | some page =>
    match decodeNode.run page with
    | .ok n _ => .ok n
    | .error e _ => .error e

/-- `saveNode`. -/
def saveNode (id : PageId) (n : Node) : EStateM Fault BTree Unit :=
  match encodeNode n with
  | .ok page => do
    let _ ← onPager (Pager.writePage (some id) page)
  | .error e => throw e

/-- `newPage`. -/
def newPage (type : NodeType) : EStateM Fault BTree PageId := do
  let id ← onPager Pager.allocatePage
  saveNode id ⟨⟨type, 0, 0⟩, [], []⟩
  return id

/-- `createNew`. -/
def createNew : EStateM Fault BTree PageId := do
  let root ← newPage .leaf
  modify fun t => { t with rootPageId := root }
  return root

/-! ## Descent and lookup -/

/-- The scan over the separators: the child of the last entry of the run of entries not above
`key`. -/
def lastChild (key : Value) : PageId → List InternalEntry → PageId
  | next, [] => next
  | next, e :: es => if key.operatorGe e.key then lastChild key e.child es else next

/-- The child to descend to. `front` of an empty node is undefined behaviour. -/
def childFor (key : Value) (internal : List InternalEntry) : Except Fault PageId :=
  let next := lastChild key 0 internal
  if next = 0 then
    match internal with
    | [] => .error .outOfBounds
    | e :: _ => .ok e.child
  else .ok next

def findLeafFrom (p : Pager) (key : Value) : Nat → PageId → Except Fault PageId
  | 0, _ => .error .nontermination
  | fuel + 1, cur => do
    let n ← loadNode p cur
    if n.hdr.type = .leaf then return cur
    findLeafFrom p key fuel (← childFor key n.internal)

/-- `findLeaf`. -/
def findLeaf (t : BTree) (key : Value) : Except Fault PageId :=
  findLeafFrom t.pager key (t.pager.header.pageCount.toNat + 1) t.rootPageId

/-- The visibility test of `get` and `scan`. -/
def visible (txn visibleSeq : UInt64) (e : LeafEntry) : Bool :=
  if e.commitSeq = 0 then e.txnId == txn else decide (e.commitSeq ≤ visibleSeq)

/-- The version `get` stops at in a leaf. -/
def lookup (key : Value) (txn visibleSeq : UInt64) (leaf : List LeafEntry) : Option LeafEntry :=
  leaf.find? fun e => !e.key.operatorNe key && visible txn visibleSeq e

/-- `get`. -/
def get (t : BTree) (key : Value) (txn visibleSeq : UInt64) : Except Fault LookupResult := do
  let leafId ← t.findLeaf key
  let n ← loadNode t.pager leafId
  return .ofOption (lookup key txn visibleSeq n.leaf)

/-! ## Insertion -/

/-- `put` stops here when it looks for the insert position. -/
def goesBefore (e it : LeafEntry) : Bool :=
  e.key.operatorLt it.key ||
    (e.key.operatorEq it.key && decide (it.commitSeq < e.commitSeq)) ||
    (e.key.operatorEq it.key && e.commitSeq == it.commitSeq && decide (e.txnId < it.txnId))

/-- The leaf holds a version at the position of `e`. -/
def occupied (e : LeafEntry) (leaf : List LeafEntry) : Bool :=
  leaf.any fun x => x.key.operatorEq e.key && x.commitSeq == e.commitSeq && x.txnId == e.txnId

/-- Insertion into a leaf. -/
def insertEntry (e : LeafEntry) (leaf : List LeafEntry) : List LeafEntry :=
  leaf.orderedInsert (fun a b => goesBefore a b = true) e

/-- Insertion into an internal node. -/
def insertSeparator (e : InternalEntry) (internal : List InternalEntry) : List InternalEntry :=
  internal.orderedInsert (fun a b => a.key.operatorGe b.key = false) e

def maxLeafEntries : UInt16 := 64

def maxInternalEntries : UInt16 := 128

/-- `splitLeaf`: the new right page and the promoted key. -/
def splitLeaf (leafId : PageId) (hdr : NodeHeader) (entries : List LeafEntry) :
    EStateM Fault BTree (PageId × Value) := do
  let left := entries.take (entries.length / 2)
  let right := entries.drop (entries.length / 2)
  match right with
  | [] => throw .outOfBounds
  | first :: _ =>
    let newRight ← newPage .leaf
    saveNode leafId ⟨⟨.leaf, UInt16.ofNat left.length, newRight⟩, [], left⟩
    saveNode newRight ⟨⟨.leaf, UInt16.ofNat right.length, hdr.rightSibling⟩, [], right⟩
    return (newRight, first.key)

/-- `splitInternal`. -/
def splitInternal (internalId : PageId) (entries : List InternalEntry) :
    EStateM Fault BTree (PageId × Value) := do
  let left := entries.take (entries.length / 2)
  let right := entries.drop (entries.length / 2)
  match right with
  | [] => throw .outOfBounds
  | first :: _ =>
    let newRight ← newPage .internal
    saveNode internalId ⟨⟨.internal, UInt16.ofNat left.length, 0⟩, left, []⟩
    saveNode newRight ⟨⟨.internal, UInt16.ofNat right.length, 0⟩, right, []⟩
    return (newRight, first.key)

/-- The pages of a stack, top first, until one visit has found a parent. -/
def searchStack (visit : PageId → Except Fault PageId) : List PageId → Except Fault PageId
  | [] => .ok 0
  | cur :: stack => do
    let parent ← visit cur
    if parent = 0 then searchStack visit stack else return parent

/-- The depth-first walk for the node that has `child` among its children, 0 when there is none.
Children are pushed in order, so the last one is visited first. The fuel bounds the depth. -/
def parentOf (p : Pager) (child : PageId) : Nat → PageId → Except Fault PageId
  | fuel, cur => do
    let n ← loadNode p cur
    if n.hdr.type = .internal then
      if n.internal.any fun e => e.child == child then return cur
      match fuel with
      | 0 => .error .nontermination
      | fuel + 1 => searchStack (parentOf p child fuel) (n.internal.map InternalEntry.child).reverse
    else return 0

/-- The parent of a child, found by a walk from the root. -/
def findParent (child : PageId) : EStateM Fault BTree PageId := do
  let parent ← reading fun t =>
    parentOf t.pager child (t.pager.header.pageCount.toNat + 1) t.rootPageId
  if parent = 0 then
    throw (.runtimeError (ascii "insertIntoParent: parent of left_child not found"))
  else return parent

/-- The root is a leaf and has been split: a new internal root above the two halves. -/
def raiseRoot (key : Value) (right : PageId) : EStateM Fault BTree Unit := do
  let oldRoot := (← MonadState.get).rootPageId
  let newRoot ← newPage .internal
  saveNode newRoot ⟨⟨.internal, 2, 0⟩, [⟨.null, oldRoot⟩, ⟨key, right⟩], []⟩
  modify fun t => { t with rootPageId := newRoot }

/-- The loop of `insertIntoParent`. Every further round has split a node and so allocated a page. -/
def insertLoop : Nat → PageId → Value → PageId → EStateM Fault BTree Unit
  | 0, _, _, _ => throw .nontermination
  | fuel + 1, curLeft, curKey, curRight => do
    let root ← reading fun t => loadNode t.pager t.rootPageId
    if root.hdr.type = .leaf then raiseRoot curKey curRight
    else
      let parent ← findParent curLeft
      let n ← reading fun t => loadNode t.pager parent
      let entries := insertSeparator ⟨curKey, curRight⟩ n.internal
      let hdr := { n.hdr with numEntries := n.hdr.numEntries + 1 }
      if hdr.numEntries ≤ maxInternalEntries then saveNode parent ⟨hdr, entries, n.leaf⟩
      else
        let (newRight, promotedKey) ← splitInternal parent entries
        insertLoop fuel parent promotedKey newRight

/-- `insertIntoParent`. -/
def insertIntoParent (leftChild : PageId) (key : Value) (rightChild : PageId) :
    EStateM Fault BTree Unit := do
  let p := (← MonadState.get).pager
  insertLoop (p.allocator.pool.length + p.capacity + 1) leftChild key rightChild

/-- `put`. -/
def put (e : LeafEntry) : EStateM Fault BTree Bool := do
  let leafId ← reading fun t => t.findLeaf e.key
  let n ← reading fun t => loadNode t.pager leafId
  if occupied e n.leaf then return false
  let leaf := insertEntry e n.leaf
  let hdr := { n.hdr with numEntries := n.hdr.numEntries + 1 }
  if maxLeafEntries < hdr.numEntries ∨ Pager.dataPagePayloadSize - 64 < approxBytes leaf then
    let (newRight, promotedKey) ← splitLeaf leafId hdr leaf
    insertIntoParent leafId promotedKey newRight
    return true
  saveNode leafId ⟨hdr, n.internal, leaf⟩
  return true

/-! ## Scans -/

def leftmostFrom (p : Pager) : Nat → PageId → Except Fault PageId
  | 0, _ => .error .nontermination
  | fuel + 1, cur => do
    let n ← loadNode p cur
    if n.hdr.type = .leaf then return cur
    match n.internal with
    | [] => .error .outOfBounds
    | e :: _ => leftmostFrom p fuel e.child

/-- The leftmost leaf. -/
def leftmost (t : BTree) : Except Fault PageId :=
  leftmostFrom t.pager (t.pager.header.pageCount.toNat + 1) t.rootPageId

/-- The leaf chain from a page on, each page with its entries. -/
def chainFrom (p : Pager) : Nat → PageId → Except Fault (List (PageId × List LeafEntry))
  | fuel, cur =>
    if cur = 0 then .ok []
    else
      match fuel with
      | 0 => .error .nontermination
      | fuel + 1 => do
        let n ← loadNode p cur
        let rest ← chainFrom p fuel n.hdr.rightSibling
        return (cur, n.leaf) :: rest

/-- The pages the two scans walk over. -/
def leafChain (t : BTree) : Except Fault (List (PageId × List LeafEntry)) := do
  chainFrom t.pager (t.pager.header.pageCount.toNat + 1) (← t.leftmost)

/-- The entries `scanAll` hands to a callback that never stops it. -/
def scanAll (t : BTree) : Except Fault (List LeafEntry) := do
  return ((← t.leafChain).map Prod.snd).flatten

/-- The loop of `scan` over one leaf: per group of equal keys the first visible version. A key that
does not equal itself makes no progress. -/
def scanGroups (txn visibleSeq : UInt64) :
    Nat → List LeafEntry → Except Fault (List (Value × LookupResult))
  | _, [] => .ok []
  | 0, _ :: _ => .error .nontermination
  | fuel + 1, e :: es => do
    let group := (e :: es).takeWhile fun x => x.key.operatorEq e.key
    let more ← scanGroups txn visibleSeq fuel
      ((e :: es).dropWhile fun x => x.key.operatorEq e.key)
    match group.find? (visible txn visibleSeq) with
    | some v => return (e.key, .ofEntry v) :: more
    | none => return more

/-- The groups of one leaf. -/
def scanLeaf (txn visibleSeq : UInt64) (leaf : List LeafEntry) :
    Except Fault (List (Value × LookupResult)) :=
  scanGroups txn visibleSeq leaf.length leaf

/-- The leaves of a scan one after the other. -/
def scanLeaves (txn visibleSeq : UInt64) :
    List (List LeafEntry) → Except Fault (List (Value × LookupResult))
  | [] => .ok []
  | leaf :: rest => do
    let reported ← scanLeaf txn visibleSeq leaf
    return reported ++ (← scanLeaves txn visibleSeq rest)

/-- The calls `scan` makes to a callback that never stops it. -/
def scan (t : BTree) (txn visibleSeq : UInt64) : Except Fault (List (Value × LookupResult)) := do
  scanLeaves txn visibleSeq ((← t.leafChain).map Prod.snd)

/-! ## Release -/

/-- The depth-first walk of `freeAllPages`; every round frees a page it has not visited before. -/
def freeLoop : Nat → List PageId → List PageId → EStateM Fault BTree Unit
  | 0, _, _ => throw .nontermination
  | fuel + 1, visited, stack =>
    match stack.dropWhile fun id => id = 0 ∨ id ∈ visited with
    | [] => return ()
    | id :: stack => do
      let n ← reading fun t => loadNode t.pager id
      let children := if n.hdr.type = .internal then n.internal.map InternalEntry.child else []
      onPager (Pager.freePage id)
      freeLoop fuel (id :: visited) (children.reverse ++ stack)

/-- `freeAllPages`. -/
def freeAllPages : EStateM Fault BTree Unit := do
  let t ← MonadState.get
  if t.rootPageId = 0 then return ()
  freeLoop (t.pager.header.pageCount.toNat + 1) [] [t.rootPageId]
  modify fun t => { t with rootPageId := 0 }

end BTree

end OpenDB
