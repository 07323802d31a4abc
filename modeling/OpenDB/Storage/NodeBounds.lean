import OpenDB.Library.Postconditions
import OpenDB.Storage.BTree

/-!
# Reads within a page

`loadNode` takes counts and lengths from the page it reads. It compares two of them with the end of
the page, the length of a column name and the length of a tuple, and it throws at a tag it does not
know. Everything else it trusts. `PageWithin` follows the declared lengths over the page and says that
nothing they declare leaves it; on such pages `loadNode` returns or throws, and on every other page it
reads past the end (`loadsSafely_iff`).
-/

set_option autoImplicit false

namespace OpenDB

open OpenDB.Library

/-! ## Lengths a page declares -/

/-- Bytes of a string with its length in front. -/
def prefixedLength (bs : Bytes) : Nat := 4 + leValue (bs.take 4)

/-- Bytes of a value behind its tag. -/
def ValueType.width (bs : Bytes) : ValueType → Nat
  | .null => 0
  | .bool => 1
  | .int32 | .date => 4
  | .int64 | .double | .timestamp => 8
  | .text | .blob => prefixedLength bs
  | .other _ => 0

/-- The value in front stays within the bytes, and `Next` holds of what follows it. An unknown tag
ends the reading. -/
def ValueWithin (Next : Bytes → Prop) : Bytes → Prop
  | [] => False
  | tag :: bs =>
    8 < tag.toNat ∨
      ((ValueType.ofByte tag).width bs ≤ bs.length ∧
        Next (bs.drop ((ValueType.ofByte tag).width bs)))

/-- So do `n` columns; a name that would leave the bytes ends the tuple. -/
def ColumnsWithin (Next : Prop) : Nat → Bytes → Prop
  | 0, _ => Next
  | n + 1, bs =>
    if bs.length < prefixedLength bs then Next
    else ValueWithin (ColumnsWithin Next n) (bs.drop (prefixedLength bs))

def TupleWithin (Next : Prop) (bs : Bytes) : Prop :=
  if bs.length < 4 then Next else ColumnsWithin Next (leValue (bs.take 4)) (bs.drop 4)

/-- So do `n` separators. -/
def SeparatorsWithin : Nat → Bytes → Prop
  | 0, _ => True
  | n + 1, bs =>
    ValueWithin (fun rest => 4 ≤ rest.length ∧ SeparatorsWithin n (rest.drop 4)) bs

/-- So do `n` versions: behind the key 17 bytes and a length, and the next version starts where the
length says. -/
def VersionsWithin : Nat → Bytes → Prop
  | 0, _ => True
  | n + 1, bs =>
    ValueWithin (fun rest => 21 ≤ rest.length ∧
      TupleWithin (VersionsWithin n (rest.drop (17 + prefixedLength (rest.drop 17))))
        (rest.drop 21)) bs

/-- Nothing that the page declares leaves it. -/
def PageWithin (page : Bytes) : Prop :=
  nodeHeaderSize ≤ page.length ∧
    if page.head? = some 0 then
      SeparatorsWithin (leValue ((page.drop 1).take 2)) (page.drop nodeHeaderSize)
    else VersionsWithin (leValue ((page.drop 1).take 2)) (page.drop nodeHeaderSize)

/-! ## Readers -/

/-- A reader returns, or throws; `Next` holds of what it leaves. -/
def ReadsWithin {α : Type} (x : Decoder α) (bs : Bytes) (Next : α → Bytes → Prop) : Prop :=
  EndsIn x bs Next fun e _ => e.isThrown = true

section

variable {α β : Type} {bs : Bytes} {Next : α → Bytes → Prop}

theorem readsWithin_bind {x : Decoder α} {f : α → Decoder β} {Next : β → Bytes → Prop} :
    ReadsWithin (x >>= f) bs Next ↔ ReadsWithin x bs fun a rest => ReadsWithin (f a) rest Next :=
  EndsIn.bind_iff

theorem readsWithin_readByte {Next : UInt8 → Bytes → Prop} :
    ReadsWithin readByte bs Next ↔ 1 ≤ bs.length ∧ Next (bs.headD 0) (bs.drop 1) := by
  cases bs with
  | nil => simp [ReadsWithin, EndsIn, EStateM.run, readByte, Fault.isThrown]
  | cons b rest => simp [ReadsWithin, EndsIn, EStateM.run, readByte]

theorem readsWithin_readBytes {n : Nat} {Next : Bytes → Bytes → Prop} :
    ReadsWithin (readBytes n) bs Next ↔ n ≤ bs.length ∧ Next (bs.take n) (bs.drop n) := by
  by_cases h : bs.length < n
  · simp [ReadsWithin, EndsIn, EStateM.run, readBytes, h, Fault.isThrown]
  · simp [ReadsWithin, EndsIn, EStateM.run, readBytes, h, not_lt.1 h]

theorem readsWithin_readLE {w : Nat} {Next : Nat → Bytes → Prop} :
    ReadsWithin (readLE w) bs Next ↔ w ≤ bs.length ∧ Next (leValue (bs.take w)) (bs.drop w) := by
  rw [readLE, readsWithin_bind, readsWithin_readBytes]
  rfl

theorem readsWithin_pure {a : α} : ReadsWithin (pure a) bs Next ↔ Next a bs := Iff.rfl

theorem readsWithin_get {Next : Bytes → Bytes → Prop} :
    ReadsWithin MonadState.get bs Next ↔ Next bs bs := Iff.rfl

theorem readsWithin_set {rest : Bytes} {Next : PUnit → Bytes → Prop} :
    ReadsWithin (MonadStateOf.set rest) bs Next ↔ Next ⟨⟩ rest := Iff.rfl

theorem readsWithin_throw {f : Fault} :
    ReadsWithin (throw f : Decoder α) bs Next ↔ f.isThrown = true := Iff.rfl

end

/-- A string with its length in front. -/
theorem readsWithin_prefixed {bs : Bytes} {f : Bytes → Value} {Next : Bytes → Prop} :
    ReadsWithin (do
        let len ← readLE 4
        let s ← readBytes len
        return f s) bs (fun _ => Next) ↔
      prefixedLength bs ≤ bs.length ∧ Next (bs.drop (prefixedLength bs)) := by
  rw [readsWithin_bind, readsWithin_readLE, readsWithin_bind, readsWithin_readBytes,
    readsWithin_pure, List.length_drop, List.drop_drop, ← and_assoc]
  refine and_congr_left' ?_
  rw [prefixedLength]
  omega

theorem readsWithin_fromBytes {bs : Bytes} {Next : Bytes → Prop} :
    ReadsWithin Value.fromBytes bs (fun _ => Next) ↔ ValueWithin Next bs := by
  rw [Value.fromBytes, readsWithin_bind, readsWithin_readByte]
  cases bs with
  | nil => simp [ValueWithin]
  | cons tag bs =>
    rw [and_iff_right (show 1 ≤ (tag :: bs).length from Nat.le_add_left 1 _), List.headD_cons,
      List.drop_one, List.tail_cons, ValueWithin, ValueType.ofByte]
    have hfixed : ∀ (w : Nat) (f : Nat → Value), ReadsWithin (do
        let i ← readLE w
        return f i) bs (fun _ => Next) ↔ w ≤ bs.length ∧ Next (bs.drop w) := by
      intro w f
      rw [readsWithin_bind, readsWithin_readLE, readsWithin_pure]
    have hbool : ReadsWithin (do
        let b ← readByte
        return Value.boolean (b != 0)) bs (fun _ => Next) ↔ 1 ≤ bs.length ∧ Next (bs.drop 1) := by
      rw [readsWithin_bind, readsWithin_readByte, readsWithin_pure]
    rcases htag : tag.toNat with _ | _ | _ | _ | _ | _ | _ | _ | _ | n
    · simp [readsWithin_pure, ValueType.width]
    · simpa [ValueType.width] using hbool
    · simpa [ValueType.width] using hfixed 4 _
    · simpa [ValueType.width] using hfixed 8 _
    · simpa [ValueType.width] using hfixed 8 _
    · simpa [ValueType.width] using readsWithin_prefixed
    · simpa [ValueType.width] using readsWithin_prefixed
    · simpa [ValueType.width] using hfixed 4 _
    · simpa [ValueType.width] using hfixed 8 _
    · simp [readsWithin_throw, Fault.isThrown]

/-! ## Tuples and nodes -/

theorem readsWithin_decodeColumns {n : Nat} {t : Tuple} {bs : Bytes} {Next : Prop} :
    ReadsWithin (Tuple.decodeColumns n t) bs (fun _ _ => Next) ↔ ColumnsWithin Next n bs := by
  induction n generalizing t bs with
  | zero => exact Iff.rfl
  | succ n ih =>
    rw [Tuple.decodeColumns, ColumnsWithin, readsWithin_bind, readsWithin_get]
    by_cases hlength : bs.length < 4
    · rw [if_pos hlength, if_pos (by rw [prefixedLength]; omega)]
      rfl
    · rw [if_neg hlength, readsWithin_bind, readsWithin_readLE, and_iff_right (not_lt.1 hlength),
        readsWithin_bind, readsWithin_get, List.length_drop]
      by_cases hname : bs.length < prefixedLength bs
      · rw [if_pos hname, if_pos (by rw [prefixedLength] at hname; omega)]
        rfl
      · have hfits : ¬ bs.length - 4 < leValue (bs.take 4) := by
          rw [prefixedLength] at hname
          omega
        rw [if_neg hname, if_neg hfits, readsWithin_bind, readsWithin_readBytes, List.length_drop,
          and_iff_right (not_lt.1 hfits), List.drop_drop, readsWithin_bind]
        simp only [ih]
        exact readsWithin_fromBytes

theorem readsWithin_decodeTuple {bs : Bytes} {Next : Prop} :
    ReadsWithin Tuple.decodeTuple bs (fun _ _ => Next) ↔ TupleWithin Next bs := by
  rw [Tuple.decodeTuple, TupleWithin, readsWithin_bind, readsWithin_get]
  split_ifs with hlength
  · exact Iff.rfl
  · rw [readsWithin_bind, readsWithin_readLE, and_iff_right (not_lt.1 hlength)]
    exact readsWithin_decodeColumns

theorem readsWithin_decodeInternal {n : Nat} {bs : Bytes} :
    ReadsWithin (decodeInternal n) bs (fun _ _ => True) ↔ SeparatorsWithin n bs := by
  induction n generalizing bs with
  | zero => exact iff_of_true trivial trivial
  | succ n ih =>
    rw [decodeInternal, readsWithin_bind, SeparatorsWithin, ← readsWithin_fromBytes]
    simp only [readsWithin_bind, readsWithin_readLE, readsWithin_pure]
    simp only [ih]

theorem readsWithin_decodeLeaf {n : Nat} {bs : Bytes} :
    ReadsWithin (decodeLeaf n) bs (fun _ _ => True) ↔ VersionsWithin n bs := by
  induction n generalizing bs with
  | zero => exact iff_of_true trivial trivial
  | succ n ih =>
    -- the fields between the key and the tuple, taken together
    have hfields : ∀ rest : Bytes, (8 ≤ rest.length ∧ 8 ≤ rest.length - 8 ∧ 1 ≤ rest.length - 8 - 8 ∧
        4 ≤ rest.length - 8 - 8 - 1 ∧ TupleWithin (VersionsWithin n (rest.drop
          (8 + (8 + (1 + (4 + leValue ((rest.drop (8 + (8 + 1))).take 4)))))))
            (rest.drop (8 + (8 + (1 + 4))))) ↔
        21 ≤ rest.length ∧ TupleWithin
          (VersionsWithin n (rest.drop (17 + prefixedLength (rest.drop 17)))) (rest.drop 21) := by
      intro rest
      have hnext : 8 + (8 + (1 + (4 + leValue ((rest.drop (8 + (8 + 1))).take 4)))) =
          17 + prefixedLength (rest.drop 17) := by
        show 8 + (8 + (1 + (4 + leValue ((rest.drop 17).take 4)))) = _
        rw [prefixedLength]
        omega
      rw [hnext, ← and_assoc, ← and_assoc, ← and_assoc]
      refine and_congr_left' ?_
      omega
    rw [decodeLeaf, readsWithin_bind, VersionsWithin, ← readsWithin_fromBytes]
    simp only [readsWithin_bind, readsWithin_readLE, readsWithin_readByte, readsWithin_pure,
      readsWithin_get, readsWithin_set, readsWithin_decodeTuple, ih, List.drop_drop, List.length_drop,
      hfields]

theorem ofByte_eq_internal_iff {code : UInt8} : NodeType.ofByte code = .internal ↔ code = 0 := by
  rw [NodeType.ofByte, ← UInt8.toNat_inj]
  rcases code.toNat with _ | _ | n
  · simp
  · simp
  · simp

theorem readsWithin_decodeNode {page : Bytes} :
    ReadsWithin decodeNode page (fun _ _ => True) ↔ PageWithin page := by
  have hheader : ∀ P : Prop, (1 ≤ page.length ∧ 2 ≤ page.length - 1 ∧ 4 ≤ page.length - 1 - 2 ∧
      1 ≤ page.length - 1 - 2 - 4 ∧ P) ↔ nodeHeaderSize ≤ page.length ∧ P := by
    intro P
    rw [← and_assoc, ← and_assoc, ← and_assoc, nodeHeaderSize]
    refine and_congr_left' ?_
    omega
  rw [decodeNode, PageWithin]
  simp only [readsWithin_bind, readsWithin_readLE, readsWithin_readByte, List.drop_drop,
    List.length_drop, hheader]
  refine and_congr_right fun hlength => ?_
  have hhead : page.head? = some 0 ↔ NodeType.ofByte (page.headD 0) = .internal := by
    rw [ofByte_eq_internal_iff]
    cases page with
    | nil => cases hlength
    | cons b rest => simp
  rw [if_congr hhead rfl rfl]
  split_ifs
  · rw [readsWithin_bind]
    exact readsWithin_decodeInternal
  · rw [readsWithin_bind]
    exact readsWithin_decodeLeaf

/-! ## Loading a node -/

/-- `loadNode` returns a node or throws a `std::runtime_error`; it reads nothing but the page. -/
def BTree.LoadsSafely (p : Pager) (id : PageId) : Prop :=
  (∃ n, loadNode p id = .ok n) ∨ ∃ what, loadNode p id = .error (.runtimeError what)

theorem BTree.loadsSafely_of_readPage {p : Pager} {id : PageId} {page : Bytes}
    (hread : p.readPage id = some page) : LoadsSafely p id ↔ PageWithin page := by
  rw [LoadsSafely, loadNode, hread, ← readsWithin_decodeNode, ReadsWithin, EndsIn]
  cases hrun : decodeNode.run page with
  | ok n rest => simp [hrun]
  | error f rest => cases f <;> simp [hrun, Fault.isThrown]

/-- A node is loaded safely exactly when nothing that its page declares leaves the page. -/
theorem BTree.loadsSafely_iff (p : Pager) (id : PageId) :
    LoadsSafely p id ↔ ∀ page, p.readPage id = some page → PageWithin page := by
  cases hread : p.readPage id with
  | none =>
    rw [LoadsSafely, loadNode, hread]
    refine iff_of_true (Or.inr ⟨_, rfl⟩) ?_
    rintro page ⟨⟩
  | some page =>
    rw [loadsSafely_of_readPage hread]
    simp

/-- The pages that `saveNode` writes are loaded safely. -/
theorem pageWithin_pageBytes {n : Node} (hfits : n.Fits) (hcount : n.Counted) :
    PageWithin n.pageBytes := by
  rw [← readsWithin_decodeNode]
  exact EndsIn.of_run_ok (run_decodeNode_pageBytes hfits hcount) trivial

/-- A leaf with one version, whose key declares a text of `2 ^ 32 - 1` bytes. -/
def overlongKeyPage : Bytes :=
  [1, 1, 0, 0, 0, 0, 0, 0, 5, 255, 255, 255, 255] ++ List.replicate 4075 0

theorem length_overlongKeyPage : overlongKeyPage.length = Pager.dataPagePayloadSize := by
  rw [overlongKeyPage, List.length_append, List.length_replicate]
  rfl

theorem run_decodeNode_overlongKeyPage :
    decodeNode.run overlongKeyPage = .error .outOfBounds (List.replicate 4075 0) := by
  have hlength : (List.replicate 4075 (0 : UInt8)).length < 4294967295 := by
    rw [List.length_replicate]
    decide
  rw [overlongKeyPage]
  generalize List.replicate 4075 (0 : UInt8) = text at hlength ⊢
  have htext : (readBytes 4294967295).run text = .error .outOfBounds text := if_pos hlength
  -- header, tag and length are read, and then the text
  have hcount : ∀ rest, (readLE 2).run (1 :: 0 :: rest) = .ok 1 rest := fun rest => rfl
  have hsibling : ∀ rest, (readLE 4).run (0 :: 0 :: 0 :: 0 :: rest) = .ok 0 rest := fun rest => rfl
  have hdeclared : ∀ rest, (readLE 4).run (255 :: 255 :: 255 :: 255 :: rest) =
      .ok 4294967295 rest := by
    intro rest
    have hvalue : leValue [255, 255, 255, 255] = 4294967295 := by decide
    rw [← hvalue]
    rfl
  have hkey : Value.fromBytes.run (5 :: 255 :: 255 :: 255 :: 255 :: text) =
      .error .outOfBounds text := by
    rw [Value.fromBytes, EStateM.run_bind, run_readByte_cons]
    simp [hdeclared, htext]
  have hleaf : NodeType.ofByte 1 ≠ .internal := by decide
  simp [decodeNode, decodeLeaf, hcount, hsibling, hleaf, hkey]

theorem BTree.loadNode_overlongKeyPage {p : Pager} {id : PageId}
    (hread : p.readPage id = some overlongKeyPage) : loadNode p id = .error .outOfBounds := by
  rw [loadNode, hread]
  dsimp only
  rw [run_decodeNode_overlongKeyPage]

/-- The page can be written and read, and loading it reads past its end. -/
theorem BTree.not_loadsSafely_overlongKeyPage :
    ∃ (p p' : Pager) (id : PageId), (Pager.writePage (some id) overlongKeyPage).run p = .ok id p' ∧
      p'.readPage id = some overlongKeyPage ∧ loadNode p' id = .error .outOfBounds ∧
      ¬ LoadsSafely p' id := by
  obtain ⟨p, hpages⟩ : ∃ p : Pager, (1 : PageId).toNat < p.header.pageCount.toNat :=
    ⟨⟨[RawPage.zero, RawPage.zero], ⟨Pager.magic, Pager.version, 2, Pager.invalidPage⟩,
      BuddyPageAllocator.new, 16, by decide⟩, by decide⟩
  have hread := Pager.readPage_withPage_self length_overlongKeyPage (show (1 : PageId) ≠ 0 by decide) hpages
  have hload := loadNode_overlongKeyPage hread
  refine ⟨p, _, 1, Pager.run_writePage length_overlongKeyPage (by decide) hpages, hread, hload, ?_⟩
  rw [LoadsSafely, hload]
  simp

end OpenDB
