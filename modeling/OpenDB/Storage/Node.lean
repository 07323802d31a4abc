import OpenDB.Types.Tuple
import OpenDB.Storage.Pager

/-!
# B+tree nodes and their page format

A node is a header and a list of entries: separators with child pages in an internal node, versions
of rows in a leaf. `encodeNode` is the body of `saveNode`: it copies the entries into a page-sized
buffer, and only the payload of a leaf entry is checked against the end of that buffer. Every other
copy past the end is an access outside the buffer.

`encodeNode_eq_ok_iff` says when a node is written and what the page then holds,
`run_decodeNode_pageBytes` that reading the page gives the node back.
-/

set_option autoImplicit false

namespace OpenDB

open OpenDB.Library

/-- `NodeType`, and a byte read back from a page that is neither. -/
inductive NodeType where
  | internal | leaf
  | other (code : UInt8)
  deriving DecidableEq, Repr

def NodeType.toByte : NodeType → UInt8
  | .internal => 0
  | .leaf => 1
  | .other code => code

def NodeType.ofByte (code : UInt8) : NodeType :=
  match code.toNat with
  | 0 => .internal
  | 1 => .leaf
  | _ => .other code

/-- `NodeHeader`. -/
structure NodeHeader where
  type : NodeType
  numEntries : UInt16
  rightSibling : PageId
  deriving DecidableEq, Repr

/-- `InternalEntry`: the subtree of `child` holds keys from `key` on. -/
structure InternalEntry where
  key : Value
  child : PageId
  deriving DecidableEq, Repr

/-- `LeafEntry`: one version of a row. Commit sequence 0 marks a staged version of `txnId`. -/
structure LeafEntry where
  key : Value
  commitSeq : UInt64
  txnId : UInt64
  tombstone : Bool
  payload : Tuple
  deriving DecidableEq

/-- What `loadNode` fills in: the list that does not belong to the type stays empty. -/
structure Node where
  hdr : NodeHeader
  internal : List InternalEntry
  leaf : List LeafEntry
  deriving DecidableEq

/-- A leaf whose header counts its entries. -/
def Node.ofLeaf (rightSibling : PageId) (leaf : List LeafEntry) : Node :=
  ⟨⟨.leaf, UInt16.ofNat leaf.length, rightSibling⟩, [], leaf⟩

/-- An internal node whose header counts its entries. -/
def Node.ofInternal (internal : List InternalEntry) : Node :=
  ⟨⟨.internal, UInt16.ofNat internal.length, 0⟩, internal, []⟩

/-! ## Writing -/

/-- Size of the header, padded for alignment. -/
def nodeHeaderSize : Nat := 8

def headerBytes (hdr : NodeHeader) : Bytes :=
  hdr.type.toByte :: (leBytes 2 hdr.numEntries.toNat ++ (leBytes 4 hdr.rightSibling.toNat ++ [0]))

/-- `memcpy` to the end of what has been written so far; the buffer has the size of a payload. -/
def emit (bs : Bytes) : EStateM Fault Bytes Unit := fun out =>
  if out.length + bs.length ≤ Pager.dataPagePayloadSize then .ok () (out ++ bs)
  else .error .outOfBounds out

/-- Text of the exception for a leaf payload that does not fit. -/
def leafOverflow (offset payload : Nat) : Fault :=
  .runtimeError (ascii
    ("BTree::saveNode: leaf page byte overflow (offset=" ++ toString offset ++ ", payload=" ++
      toString payload ++ ", cap=" ++ toString Pager.dataPagePayloadSize ++ ")"))

/-- One separator of an internal node. -/
def emitInternal (e : InternalEntry) : EStateM Fault Bytes Unit := do
  emit e.key.toBytes
  emit (leBytes 4 e.child.toNat)

/-- One version of a leaf. -/
def emitLeaf (e : LeafEntry) : EStateM Fault Bytes Unit := do
  emit e.key.toBytes
  emit (leBytes 8 e.commitSeq.toNat)
  emit (leBytes 8 e.txnId.toNat)
  emit [if e.tombstone then 1 else 0]
  let payload := e.payload.encodeTuple
  emit (leBytes 4 payload.length)
  let offset := (← get).length
  if Pager.dataPagePayloadSize < offset + payload.length then
    throw (leafOverflow offset payload.length)
  emit payload

/-- Entries one after the other. -/
def emitAll {α : Type} (emitOne : α → EStateM Fault Bytes Unit) :
    List α → EStateM Fault Bytes Unit
  | [] => return ()
  | e :: es => do
    emitOne e
    emitAll emitOne es

/-- The entries of the list that the type selects. -/
def emitEntries (n : Node) : EStateM Fault Bytes Unit :=
  if n.hdr.type = .internal then emitAll emitInternal n.internal else emitAll emitLeaf n.leaf

/-- The page that `saveNode` hands to the pager. -/
def encodeNode (n : Node) : Except Fault Bytes :=
  match (emitEntries n).run (headerBytes n.hdr) with
  | .ok _ out => .ok (out ++ List.replicate (Pager.dataPagePayloadSize - out.length) 0)
  | .error e _ => .error e

/-! ## Reading -/

def decodeInternal : Nat → Decoder (List InternalEntry)
  | 0 => return []
  | n + 1 => do
    let key ← Value.fromBytes
    let child ← readLE 4
    let es ← decodeInternal n
    return ⟨key, UInt32.ofNat child⟩ :: es

/-- The tuple is length-prefixed; the next entry starts where the prefix says. -/
def decodeLeaf : Nat → Decoder (List LeafEntry)
  | 0 => return []
  | n + 1 => do
    let key ← Value.fromBytes
    let commitSeq ← readLE 8
    let txnId ← readLE 8
    let tombstone ← readByte
    let tlen ← readLE 4
    let data ← get
    let payload ← Tuple.decodeTuple
    set (data.drop tlen)
    let es ← decodeLeaf n
    return ⟨key, UInt64.ofNat commitSeq, UInt64.ofNat txnId, tombstone != 0, payload⟩ :: es

/-- The parsing half of `loadNode`. -/
def decodeNode : Decoder Node := do
  let type := NodeType.ofByte (← readByte)
  let numEntries ← readLE 2
  let rightSibling ← readLE 4
  let _ ← readByte
  let hdr : NodeHeader := ⟨type, UInt16.ofNat numEntries, UInt32.ofNat rightSibling⟩
  if type = .internal then
    return ⟨hdr, ← decodeInternal numEntries, []⟩
  else
    return ⟨hdr, [], ← decodeLeaf numEntries⟩

/-! ## What is written -/

def InternalEntry.bytes (e : InternalEntry) : Bytes :=
  e.key.toBytes ++ leBytes 4 e.child.toNat

def LeafEntry.bytes (e : LeafEntry) : Bytes :=
  e.key.toBytes ++ (leBytes 8 e.commitSeq.toNat ++ (leBytes 8 e.txnId.toNat ++
    ((if e.tombstone then 1 else 0) :: (leBytes 4 e.payload.encodeTuple.length ++
      e.payload.encodeTuple))))

/-- Bytes of the entries of a node. -/
def Node.entryBytes (n : Node) : Bytes :=
  if n.hdr.type = .internal then (n.internal.map InternalEntry.bytes).flatten
  else (n.leaf.map LeafEntry.bytes).flatten

@[simp] theorem length_headerBytes (hdr : NodeHeader) :
    (headerBytes hdr).length = nodeHeaderSize := by
  simp [headerBytes, nodeHeaderSize]

/-- A writer that appends `bs` when it fits and faults when it does not. -/
def Appends (x : EStateM Fault Bytes Unit) (bs : Bytes) : Prop :=
  ∀ out : Bytes, out.length ≤ Pager.dataPagePayloadSize →
    (out.length + bs.length ≤ Pager.dataPagePayloadSize → x.run out = .ok () (out ++ bs)) ∧
    (Pager.dataPagePayloadSize < out.length + bs.length → ∃ e t, x.run out = .error e t)

theorem appends_emit (bs : Bytes) : Appends (emit bs) bs := by
  intro out _
  constructor
  · intro h
    simp [emit, EStateM.run, h]
  · intro h
    exact ⟨.outOfBounds, out, by simp [emit, EStateM.run, not_le.2 h]⟩

theorem Appends.bind {x y : EStateM Fault Bytes Unit} {bs cs : Bytes} (hx : Appends x bs)
    (hy : Appends y cs) : Appends (do x; y) (bs ++ cs) := by
  intro out hout
  have hlen : (out ++ bs).length = out.length + bs.length := List.length_append
  rw [List.length_append]
  constructor
  · intro h
    rw [EStateM.run_bind, (hx out hout).1 (by omega)]
    have := (hy (out ++ bs) (by omega)).1 (by omega)
    rw [List.append_assoc] at this
    exact this
  · intro h
    rw [EStateM.run_bind]
    by_cases hfit : out.length + bs.length ≤ Pager.dataPagePayloadSize
    · rw [(hx out hout).1 hfit]
      exact (hy (out ++ bs) (by omega)).2 (by omega)
    · obtain ⟨e, t, he⟩ := (hx out hout).2 (by omega)
      exact ⟨e, t, by rw [he]⟩

theorem appends_emitInternal (e : InternalEntry) : Appends (emitInternal e) e.bytes :=
  (appends_emit _).bind (appends_emit _)

theorem appends_emitLeaf (e : LeafEntry) : Appends (emitLeaf e) e.bytes := by
  have hpayload : Appends
      (do
        let offset := (← get).length
        if Pager.dataPagePayloadSize < offset + e.payload.encodeTuple.length then
          throw (leafOverflow offset e.payload.encodeTuple.length)
        emit e.payload.encodeTuple) e.payload.encodeTuple := by
    intro out hout
    constructor
    · intro h
      simp [not_lt.2 h, (appends_emit _ out hout).1 h]
    · intro h
      exact ⟨_, out, by simp [h]; rfl⟩
  have := (appends_emit e.key.toBytes).bind ((appends_emit (leBytes 8 e.commitSeq.toNat)).bind
    ((appends_emit (leBytes 8 e.txnId.toNat)).bind
      ((appends_emit [if e.tombstone then 1 else 0]).bind
        ((appends_emit (leBytes 4 e.payload.encodeTuple.length)).bind hpayload))))
  exact this

theorem appends_emitAll {α : Type} {emitOne : α → EStateM Fault Bytes Unit} {bytes : α → Bytes}
    (h : ∀ e, Appends (emitOne e) (bytes e)) (es : List α) :
    Appends (emitAll emitOne es) (es.map bytes).flatten := by
  induction es with
  | nil =>
    intro out hout
    constructor
    · intro _
      simp [emitAll]
    · intro hover
      exact absurd hover (by simpa using hout)
  | cons e es ih => exact (h e).bind ih

/-- The node fits a page. -/
def Node.Fits (n : Node) : Prop :=
  nodeHeaderSize + n.entryBytes.length ≤ Pager.dataPagePayloadSize

instance (n : Node) : Decidable n.Fits := inferInstanceAs (Decidable (_ ≤ _))

/-- Header, entries, and zeros up to the end of the page. -/
def Node.pageBytes (n : Node) : Bytes :=
  headerBytes n.hdr ++ (n.entryBytes ++
    List.replicate (Pager.dataPagePayloadSize - (nodeHeaderSize + n.entryBytes.length)) 0)

theorem Node.length_pageBytes {n : Node} (h : n.Fits) :
    n.pageBytes.length = Pager.dataPagePayloadSize := by
  unfold Node.Fits at h
  simp only [Node.pageBytes, List.length_append, length_headerBytes, List.length_replicate]
  omega

theorem appends_emitEntries (n : Node) : Appends (emitEntries n) n.entryBytes := by
  unfold emitEntries Node.entryBytes
  split_ifs with h
  · exact appends_emitAll appends_emitInternal n.internal
  · exact appends_emitAll appends_emitLeaf n.leaf

theorem length_headerBytes_le (hdr : NodeHeader) :
    (headerBytes hdr).length ≤ Pager.dataPagePayloadSize := by
  rw [length_headerBytes]
  decide

theorem encodeNode_of_fits {n : Node} (h : n.Fits) : encodeNode n = .ok n.pageBytes := by
  have hrun := (appends_emitEntries n _ (length_headerBytes_le n.hdr)).1
    (by rw [length_headerBytes]; exact h)
  rw [encodeNode, hrun]
  simp [Node.pageBytes]

theorem encodeNode_of_not_fits {n : Node} (h : ¬ n.Fits) : ∃ e, encodeNode n = .error e := by
  obtain ⟨e, t, hrun⟩ := (appends_emitEntries n _ (length_headerBytes_le n.hdr)).2
    (by rw [length_headerBytes]; exact not_le.1 h)
  exact ⟨e, by rw [encodeNode, hrun]⟩

/-- `saveNode` writes a node exactly when it fits. -/
theorem encodeNode_eq_ok_iff {n : Node} {page : Bytes} :
    encodeNode n = .ok page ↔ n.Fits ∧ page = n.pageBytes := by
  by_cases h : n.Fits
  · rw [encodeNode_of_fits h]
    constructor
    · intro e
      exact ⟨h, by cases e; rfl⟩
    · rintro ⟨-, rfl⟩
      rfl
  · obtain ⟨e, he⟩ := encodeNode_of_not_fits h
    rw [he]
    simp [h]

/-! ## What is read back -/

theorem run_decodeInternal (es : List InternalEntry) (rest : Bytes)
    (hsize : (es.map InternalEntry.bytes).flatten.length < 2 ^ 32) :
    (decodeInternal es.length).run ((es.map InternalEntry.bytes).flatten ++ rest) =
      .ok es rest := by
  induction es with
  | nil => rfl
  | cons e es ih =>
    simp only [List.map_cons, List.flatten_cons, List.length_append, InternalEntry.bytes,
      length_leBytes] at hsize
    have hchild : e.child.toNat < 256 ^ 4 := by simpa using e.child.toNat_lt
    have hkey := Value.run_fromBytes_toBytes e.key (by omega)
    have hassoc : ((e :: es).map InternalEntry.bytes).flatten ++ rest =
        e.key.toBytes ++ (leBytes 4 e.child.toNat ++
          ((es.map InternalEntry.bytes).flatten ++ rest)) := by
      simp [InternalEntry.bytes]
    rw [hassoc, List.length_cons, decodeInternal]
    simp only [EStateM.run_bind, hkey, run_readLE_append hchild, ih (by omega), EStateM.run_pure,
      UInt32.ofNat_toNat]

theorem run_decodeLeaf (es : List LeafEntry) (rest : Bytes)
    (hsize : (es.map LeafEntry.bytes).flatten.length < 2 ^ 32) :
    (decodeLeaf es.length).run ((es.map LeafEntry.bytes).flatten ++ rest) = .ok es rest := by
  induction es with
  | nil => rfl
  | cons e es ih =>
    simp only [List.map_cons, List.flatten_cons, List.length_append, LeafEntry.bytes,
      length_leBytes, List.length_cons] at hsize
    have hseq : e.commitSeq.toNat < 256 ^ 8 := by simpa using e.commitSeq.toNat_lt
    have htxn : e.txnId.toNat < 256 ^ 8 := by simpa using e.txnId.toNat_lt
    have hlen : e.payload.encodeTuple.length < 256 ^ 4 := by
      norm_num
      omega
    have hkey := Value.run_fromBytes_toBytes e.key (by omega)
    have hpayload := Tuple.run_decodeTuple_encodeTuple e.payload (by omega)
    have hassoc : ((e :: es).map LeafEntry.bytes).flatten ++ rest =
        e.key.toBytes ++ (leBytes 8 e.commitSeq.toNat ++ (leBytes 8 e.txnId.toNat ++
          ((if e.tombstone then 1 else 0) :: (leBytes 4 e.payload.encodeTuple.length ++
            (e.payload.encodeTuple ++ ((es.map LeafEntry.bytes).flatten ++ rest)))))) := by
      simp [LeafEntry.bytes]
    have htomb : ((if e.tombstone then (1 : UInt8) else 0) != 0) = e.tombstone := by
      cases e.tombstone <;> rfl
    rw [hassoc, List.length_cons, decodeLeaf]
    simp only [EStateM.run_bind, hkey, run_readLE_append hseq, run_readLE_append htxn,
      run_readByte_cons, run_readLE_append hlen, EStateM.run_get, hpayload, EStateM.run_set,
      List.drop_left, ih (by omega), EStateM.run_pure, UInt64.ofNat_toNat, htomb]

/-- The header counts the entries of the list its type selects, and the other list is empty. -/
def Node.Counted (n : Node) : Prop :=
  match n.hdr.type with
  | .internal => n.hdr.numEntries.toNat = n.internal.length ∧ n.leaf = []
  | .leaf => n.hdr.numEntries.toNat = n.leaf.length ∧ n.internal = []
  | .other _ => False

/-- What `saveNode` writes, `loadNode` reads back. -/
theorem run_decodeNode_pageBytes {n : Node} (hfits : n.Fits) (hcount : n.Counted) :
    decodeNode.run n.pageBytes = .ok n
      (List.replicate (Pager.dataPagePayloadSize - (nodeHeaderSize + n.entryBytes.length)) 0) := by
  have hnum : n.hdr.numEntries.toNat < 256 ^ 2 := by simpa using n.hdr.numEntries.toNat_lt
  have hsib : n.hdr.rightSibling.toNat < 256 ^ 4 := by simpa using n.hdr.rightSibling.toNat_lt
  have hsmall : n.entryBytes.length < 2 ^ 32 := by
    have h : nodeHeaderSize + n.entryBytes.length ≤ 4088 := hfits
    omega
  obtain ⟨⟨type, numEntries, rightSibling⟩, internal, leaf⟩ := n
  dsimp only at hnum hsib
  rw [Node.pageBytes, headerBytes, decodeNode]
  cases type with
  | internal =>
    obtain ⟨hlen, rfl⟩ := hcount
    dsimp only at hlen
    have htype : NodeType.ofByte NodeType.internal.toByte = .internal := rfl
    have hentries : Node.entryBytes ⟨⟨.internal, numEntries, rightSibling⟩, internal, []⟩ =
        (internal.map InternalEntry.bytes).flatten := rfl
    rw [hentries] at hsmall ⊢
    have hrun := fun rest => run_decodeInternal internal rest hsmall
    rw [← hlen] at hrun
    simp only [List.cons_append, List.append_assoc, List.nil_append, EStateM.run_bind,
      run_readByte_cons, htype, run_readLE_append hnum, run_readLE_append hsib, if_true,
      EStateM.run_pure, UInt16.ofNat_toNat, UInt32.ofNat_toNat, hrun]
  | leaf =>
    obtain ⟨hlen, rfl⟩ := hcount
    dsimp only at hlen
    have htype : NodeType.ofByte NodeType.leaf.toByte = .leaf := rfl
    have hentries : Node.entryBytes ⟨⟨.leaf, numEntries, rightSibling⟩, [], leaf⟩ =
        (leaf.map LeafEntry.bytes).flatten := rfl
    rw [hentries] at hsmall ⊢
    have hrun := fun rest => run_decodeLeaf leaf rest hsmall
    rw [← hlen] at hrun
    simp only [List.cons_append, List.append_assoc, List.nil_append, EStateM.run_bind,
      run_readByte_cons, htype, run_readLE_append hnum, run_readLE_append hsib, reduceCtorEq,
      if_false, EStateM.run_pure, UInt16.ofNat_toNat, UInt32.ofNat_toNat, hrun]
  | other code => exact absurd hcount id

/-! ## Sizes -/

/-- Bytes of an entry, the quantity `put` sums to decide on a split. -/
def LeafEntry.size (e : LeafEntry) : Nat :=
  e.key.toBytes.length + 8 + 8 + 1 + 4 + e.payload.encodeTuple.length

/-- `approxBytes`. -/
def approxBytes (es : List LeafEntry) : Nat := (es.map LeafEntry.size).sum

theorem LeafEntry.length_bytes (e : LeafEntry) : e.bytes.length = e.size := by
  simp [LeafEntry.bytes, LeafEntry.size]
  omega

theorem length_leafBytes (es : List LeafEntry) :
    (es.map LeafEntry.bytes).flatten.length = approxBytes es := by
  simp [approxBytes, List.length_flatten, Function.comp_def, LeafEntry.length_bytes]

theorem Node.fits_ofLeaf_iff {sibling : PageId} {es : List LeafEntry} :
    (Node.ofLeaf sibling es).Fits ↔ approxBytes es ≤ 4080 := by
  show 8 + ((es.map LeafEntry.bytes).flatten).length ≤ 4088 ↔ _
  rw [length_leafBytes]
  omega

end OpenDB
