import OpenDB.Library.Trace
import OpenDB.Storage.RootPages
import OpenDB.Storage.RoundTrip

/-!
# Recorded roots

Every table has its root page twice: in the tree object and in the registry that is saved as metadata.
`put` and `commit` copy the root back when the trees have changed, `remove` does not, and a `commit`
that throws between two versions of a table does not get to it either.

`LosesRoot` says, of the state before a call, that the call takes one of these two ways after the
root has been split. In every run of calls from any file without such a call the recorded roots are
those of the trees (`roots_recorded`).
-/

set_option autoImplicit false

namespace OpenDB

open OpenDB.Library

open LocalFileStorageProvider

/-- The tables of the registry are those with a live tree, and their recorded roots are those of the
trees. -/
def RootsRecorded (s : LocalFileStorageProvider) : Prop :=
  ∀ table, s.btrees.find table = (s.tables.find table).map fun info => some info.rootPageId

/-- All roots are recorded except, perhaps, that of one table. -/
structure RecordedExcept (table : Bytes) (s : LocalFileStorageProvider) : Prop where
  live : ∃ root, s.btrees.find table = some (some root)
  others : ∀ other, other ≠ table →
    s.btrees.find other = (s.tables.find other).map fun info => some info.rootPageId

namespace RootsRecorded

variable {s : LocalFileStorageProvider} {table : Bytes}

theorem find_table (h : RootsRecorded s) {root : PageId}
    (hfind : s.btrees.find table = some (some root)) :
    ∃ info, s.tables.find table = some info ∧ info.rootPageId = root := by
  rw [h table] at hfind
  obtain ⟨info, hinfo, hroot⟩ := Option.map_eq_some_iff.1 hfind
  exact ⟨info, hinfo, Option.some.inj hroot⟩

/-- Registering something about a table keeps its root. -/
theorem assignTable (h : RootsRecorded s) {info info' : TableInfo}
    (hfind : s.tables.find table = some info) (hroot : info'.rootPageId = info.rootPageId) :
    RootsRecorded { s with tables := s.tables.assign table info' } := by
  intro other
  by_cases hother : other = table
  · subst hother
    show s.btrees.find other = ((s.tables.assign other info').find other).map _
    rw [AssocMap.find_assign_self, h other, hfind, Option.map_some, Option.map_some, hroot]
  · show s.btrees.find other = ((s.tables.assign table info').find other).map _
    rw [AssocMap.find_assign_of_ne _ _ hother]
    exact h other

/-- Assigning the root that a tree has already. -/
theorem assignSame (h : RootsRecorded s) {root : PageId} (p : Pager)
    (hfind : s.btrees.find table = some (some root)) :
    RootsRecorded { s with pager := p, btrees := s.btrees.assign table (some root) } := by
  intro other
  by_cases hother : other = table
  · subst hother
    show (s.btrees.assign other (some root)).find other = _
    rw [AssocMap.find_assign_self, ← hfind]
    exact h other
  · show (s.btrees.assign table (some root)).find other = _
    rw [AssocMap.find_assign_of_ne _ _ hother]
    exact h other

/-- A tree that has moved its root. -/
theorem assignMoved (h : RootsRecorded s) (p : Pager) (root : PageId) :
    RecordedExcept table { s with pager := p, btrees := s.btrees.assign table (some root) } := by
  refine ⟨⟨root, AssocMap.find_assign_self _ _ _⟩, fun other hother => ?_⟩
  show (s.btrees.assign table (some root)).find other = _
  rw [AssocMap.find_assign_of_ne _ _ hother]
  exact h other

end RootsRecorded

/-! ## The pieces of an operation -/

/-- `syncRoot` records the root that was missing. -/
theorem RecordedExcept.recorded {s s' : LocalFileStorageProvider} {table : Bytes}
    (h : RecordedExcept table s) (hrun : (syncRoot table).run s = .ok () s') : RootsRecorded s' := by
  obtain ⟨root, hfind, rfl⟩ := run_syncRoot_ok hrun
  intro other
  by_cases hother : other = table
  · subst hother
    show s.btrees.find other = ((s.tables.assign other _).find other).map _
    rw [AssocMap.find_assign_self, hfind]
    rfl
  · show s.btrees.find other = ((s.tables.assign table _).find other).map _
    rw [AssocMap.find_assign_of_ne _ _ hother]
    exact h.others other hother

/-- It does not throw. -/
theorem RecordedExcept.syncRoot_ne_error {s s' : LocalFileStorageProvider} {table : Bytes} {e : Fault}
    (h : RecordedExcept table s) : ¬ (syncRoot table).run s = .error e s' := by
  obtain ⟨root, hfind⟩ := h.live
  show ¬ syncRoot table s = _
  rw [LocalFileStorageProvider.syncRoot]
  rw [hfind]
  rintro ⟨⟩

theorem preserves_rootsRecorded_onPager {α : Type} (x : EStateM Fault Pager α) :
    Preserves RootsRecorded (LocalFileStorageProvider.onPager x) := by
  intro s h
  show RootsRecorded (endState (LocalFileStorageProvider.onPager x s))
  rw [LocalFileStorageProvider.onPager]
  cases x.run s.pager <;> exact h

theorem preserves_rootsRecorded_saveMetadata : Preserves RootsRecorded saveMetadata := by
  refine .get_bind fun s h => ?_
  cases encodeMetadata s.metadata with
  | error e => exact h
  | ok page =>
    exact (Preserves.bind (preserves_rootsRecorded_onPager _) fun _ => .pure ()) s h

/-- A call on a tree that throws and has not moved the root. -/
theorem rootsRecorded_of_onTree_error {α : Type} {table : Bytes} {x : EStateM Fault BTree α}
    {s s' : LocalFileStorageProvider} {e : Fault} (h : RootsRecorded s)
    (hroot : ∀ root f t, s.btrees.find table = some (some root) →
      x.run ⟨s.pager, root⟩ = .error f t → t.rootPageId = root)
    (hrun : (onTree table x).run s = .error e s') : RootsRecorded s' := by
  change onTree table x s = _ at hrun
  rw [onTree] at hrun
  rcases hfind : s.btrees.find table with _ | _ | root
  · rw [hfind] at hrun
    cases hrun
    exact h
  · rw [hfind] at hrun
    cases hrun
    exact h
  · rw [hfind] at hrun
    dsimp only at hrun
    cases hx : x.run ⟨s.pager, root⟩ with
    | ok a t =>
      rw [hx] at hrun
      cases hrun
    | error f t =>
      rw [hx] at hrun
      cases hrun
      rw [hroot root _ t hfind hx]
      exact h.assignSame t.pager hfind

/-! ## The operations that never lose a root -/

theorem RootsRecorded.assignBoth {s : LocalFileStorageProvider} (h : RootsRecorded s) (p : Pager)
    (table : Bytes) (info : TableInfo) :
    RootsRecorded { s with
      pager := p
      tables := s.tables.assign table info
      btrees := s.btrees.assign table (some info.rootPageId) } := by
  intro other
  show (s.btrees.assign table _).find other = ((s.tables.assign table info).find other).map _
  by_cases hother : other = table
  · subst hother
    rw [AssocMap.find_assign_self, AssocMap.find_assign_self]
    rfl
  · rw [AssocMap.find_assign_of_ne _ _ hother, AssocMap.find_assign_of_ne _ _ hother]
    exact h other

theorem preserves_rootsRecorded_createTable (schema : Schema) :
    Preserves RootsRecorded (createTable schema) := by
  refine .get_bind fun s h => ?_
  split_ifs
  · exact h
  · exact h
  · cases schema.columns.find? fun col => !accepts col.type with
    | some col => exact h
    | none =>
      dsimp only
      cases BTree.createNew.run ⟨s.pager, 0⟩ with
      | error e t => exact h
      | ok root t =>
        exact (Preserves.bind preserves_rootsRecorded_saveMetadata fun _ => .pure _) _
          (h.assignBoth t.pager schema.table ⟨schema, root, 0⟩)

/-- Freeing the pages of a tree that throws leaves the root where it is. -/
theorem root_of_freeAllPages_error {t t' : BTree} {f : Fault}
    (h : BTree.freeAllPages.run t = .error f t') : t'.rootPageId = t.rootPageId := by
  have hloop : ∀ (fuel : Nat) (visited stack : List PageId),
      Preserves (BTree.RootAt t.rootPageId) (BTree.freeLoop fuel visited stack) := by
    intro fuel
    induction fuel with
    | zero => exact fun _ _ => .throw _
    | succ fuel ih =>
      intro visited stack
      rw [BTree.freeLoop]
      split
      · exact .pure _
      · exact .bind (.reading _) fun _ => .bind (BTree.preserves_rootAt_onPager _ _) fun _ => ih _ _
  rw [BTree.freeAllPages] at h
  rw [EStateM.run_bind, EStateM.run_get] at h
  dsimp only at h
  split_ifs at h
  · cases h
  · rw [run_bind_eq_error] at h
    obtain h | ⟨_, t₁, -, h⟩ := h
    · exact (hloop _ _ _).of_error rfl h
    · cases h

theorem RootsRecorded.eraseBoth {s : LocalFileStorageProvider} {table : Bytes}
    (h : ∀ other, other ≠ table →
      s.btrees.find other = (s.tables.find other).map fun info => some info.rootPageId) :
    RootsRecorded { s with tables := s.tables.erase table, btrees := s.btrees.erase table } := by
  intro other
  show (s.btrees.erase table).find other = ((s.tables.erase table).find other).map _
  by_cases hother : other = table
  · subst hother
    rw [AssocMap.find_erase_self, AssocMap.find_erase_self]
    rfl
  · rw [AssocMap.find_erase_of_ne _ hother, AssocMap.find_erase_of_ne _ hother]
    exact h other hother

theorem preserves_rootsRecorded_dropTable (name : Bytes) :
    Preserves RootsRecorded (dropTable name) := by
  -- both entries go, whatever has become of the root
  have hdrop : ∀ s : LocalFileStorageProvider, (∀ other, other ≠ name →
      s.btrees.find other = (s.tables.find other).map fun info => some info.rootPageId) →
      RootsRecorded (endState ((do
        modify fun s => { s with tables := s.tables.erase name, btrees := s.btrees.erase name }
        saveMetadata
        return DbError.sentinel : EStateM Fault LocalFileStorageProvider DbError).run s)) :=
    fun s hothers => (Preserves.bind preserves_rootsRecorded_saveMetadata fun _ => .pure _) _
      (RootsRecorded.eraseBoth hothers)
  refine .get_bind fun s h => ?_
  split_ifs
  · exact h
  · exact h
  · rw [EStateM.run_bind]
    cases hrun : (onTree name BTree.freeAllPages).run s with
    | error e s' =>
      exact rootsRecorded_of_onTree_error h (fun _ _ _ _ hx => root_of_freeAllPages_error hx) hrun
    | ok _ s' =>
      obtain ⟨root, t, -, -, rfl⟩ := run_onTree_ok hrun
      exact hdrop _ (h.assignMoved t.pager t.rootPageId).others
  · exact hdrop s fun other _ => h other

theorem preserves_rootsRecorded_alterTable (name : Bytes) (spec : AlterSpec) :
    Preserves RootsRecorded (alterTable name spec) := by
  have hsave : ∀ s : LocalFileStorageProvider, RootsRecorded s → RootsRecorded (endState ((do
      saveMetadata
      return DbError.sentinel : EStateM Fault LocalFileStorageProvider DbError).run s)) :=
    fun s h => (Preserves.bind preserves_rootsRecorded_saveMetadata fun _ => .pure _) s h
  refine .get_bind fun s h => ?_
  split_ifs
  · exact h
  · cases hfind : s.tables.find name with
    | none => exact h
    | some info =>
      cases spec with
      | addColumn columnDef =>
        dsimp only
        split_ifs
        · exact h
        · exact hsave _ (h.assignTable hfind rfl)
      | dropColumn column =>
        dsimp only
        split_ifs
        · exact h
        · exact hsave _ (h.assignTable hfind rfl)
      | renameTable newName =>
        dsimp only
        split_ifs
        · exact h
        · exact h
        · have htree : s.btrees.find name = some (some info.rootPageId) := by
            rw [h name, hfind]
            rfl
          rw [htree]
          have herased := @RootsRecorded.eraseBoth s name fun other _ => h other
          exact hsave _ (herased.assignBoth s.pager newName
            { info with schema := { info.schema with table := newName } })

theorem preserves_rootsRecorded_effectiveRow {s : LocalFileStorageProvider} {table : Bytes}
    {key : Value} {row : Tuple} (h : RootsRecorded s) {info : TableInfo}
    (hfind : s.tables.find table = some info) :
    RootsRecorded (endState ((effectiveRow table key row).run s)) := by
  rw [effectiveRow]
  split_ifs
  · have hinfo : s.tableInfo table = info := by
      rw [tableInfo, hfind]
      rfl
    exact h.assignTable hfind (by rw [hinfo])
  · exact h

/-- `put` records the root in the end, and a call that throws has not moved it. -/
theorem preserves_rootsRecorded_put (txn : UInt64) (table : Bytes) (key : Value) (row : Tuple) :
    Preserves RootsRecorded (put txn table key row) := by
  refine .get_bind fun s h => ?_
  split_ifs with hnone
  · exact h
  · have hsome : ∃ info, s.tables.find table = some info := by
      rw [Bool.not_eq_true, Option.isNone_eq_false_iff, Option.isSome_iff_exists] at hnone
      obtain ⟨tree, htree⟩ := hnone
      rw [h table] at htree
      obtain ⟨info, hinfo, -⟩ := Option.map_eq_some_iff.1 htree
      exact ⟨info, hinfo⟩
    obtain ⟨info, hinfo⟩ := hsome
    have heff := @preserves_rootsRecorded_effectiveRow s table key row h info hinfo
    rw [EStateM.run_bind]
    cases hkr : (effectiveRow table key row).run s with
    | error e s₁ =>
      rw [hkr] at heff
      exact heff
    | ok kr s₁ =>
      rw [hkr] at heff
      have hs₁ : RootsRecorded s₁ := heff
      obtain ⟨key', row'⟩ := kr
      dsimp only
      rw [EStateM.run_bind]
      cases hput : (onTree table (BTree.put ⟨key', 0, txn, false, row'⟩)).run s₁ with
      | error e s₂ =>
        exact rootsRecorded_of_onTree_error hs₁ (fun _ _ _ _ hx => BTree.root_of_put_error hx) hput
      | ok b s₂ =>
        obtain ⟨root, t, -, -, rfl⟩ := run_onTree_ok hput
        have hmoved := @RootsRecorded.assignMoved _ table hs₁ t.pager t.rootPageId
        dsimp only
        rw [EStateM.run_bind]
        cases hsync : (syncRoot table).run _ with
        | error e s₃ => exact absurd hsync hmoved.syncRoot_ne_error
        | ok _ s₃ => exact hmoved.recorded hsync

/-! ## The ways to lose a root -/

namespace BTree

/-- One of the versions splits the root of the tree, and a later one throws. -/
def SplitThenThrows (t : BTree) : List LeafEntry → Prop
  | [] => False
  | e :: es => ∃ b t', (put e).run t = .ok b t' ∧
      ((SplitsRoot t e ∧ ∃ f t'', (putAll es).run t' = .error f t'') ∨ t'.SplitThenThrows es)

/-- Otherwise versions of which one throws leave the root where it is. -/
theorem root_of_putAll_error {es : List LeafEntry} {t t' : BTree} {f : Fault}
    (hno : ¬ t.SplitThenThrows es) (h : (putAll es).run t = .error f t') :
    t'.rootPageId = t.rootPageId := by
  induction es generalizing t with
  | nil => cases h
  | cons e es ih =>
    rw [putAll, run_bind_eq_error] at h
    obtain h | ⟨b, t₁, hput, h⟩ := h
    · exact root_of_put_error h
    rw [run_bind_eq_error] at h
    obtain h | ⟨bs, t₂, -, h⟩ := h
    · have hkept : ¬ SplitsRoot t e := fun hsplits => hno ⟨b, t₁, hput, Or.inl ⟨hsplits, f, t', h⟩⟩
      have hrest : ¬ t₁.SplitThenThrows es := fun hlater => hno ⟨b, t₁, hput, Or.inr hlater⟩
      exact (ih hrest h).trans (root_of_put_ok hkept hput)
    · cases h

end BTree

/-- The commit comes to a table of which one promoted version splits the root, and a later one
throws. -/
def CommitLosesRoot (s : LocalFileStorageProvider) (txn seq : UInt64) : Prop :=
  ∃ done table rest s₁ root es, s.btrees.entries.map Prod.fst = done ++ table :: rest ∧
    (promoteAll txn seq done).run s = .ok () s₁ ∧ s₁.btrees.find table = some (some root) ∧
    BTree.scanAll ⟨s₁.pager, root⟩ = .ok es ∧
    BTree.SplitThenThrows ⟨s₁.pager, root⟩ (promoted txn seq es)

/-- The call loses a root: a tombstone splits the root, and `remove` does not record it, or a commit
throws before it records one. -/
def LosesRoot (s : LocalFileStorageProvider) : Op → Prop
  | .remove txn table key => ∃ root b t, s.btrees.find table = some (some root) ∧
      BTree.SplitsRoot ⟨s.pager, root⟩ (removeVersion txn key) ∧
      (BTree.put (removeVersion txn key)).run ⟨s.pager, root⟩ = .ok b t
  | .commit txn seq => CommitLosesRoot s txn seq
  | .commitNext txn =>
    CommitLosesRoot { s with internalSeq := s.internalSeq + 1 } txn (s.internalSeq + 1)
  | _ => False

theorem rootsRecorded_remove {s : LocalFileStorageProvider} {txn : UInt64} {table : Bytes}
    {key : Value} (h : RootsRecorded s) (hno : ¬ LosesRoot s (.remove txn table key)) :
    RootsRecorded (endState ((remove txn table key).run s)) := by
  rw [remove]
  rw [EStateM.run_bind, EStateM.run_get]
  dsimp only
  split_ifs
  · exact h
  · rw [EStateM.run_bind]
    cases hput : (onTree table (BTree.put ⟨key, 0, txn, true, Tuple.empty⟩)).run s with
    | error e s₁ =>
      exact rootsRecorded_of_onTree_error h (fun _ _ _ _ hx => BTree.root_of_put_error hx) hput
    | ok b s₁ =>
      obtain ⟨root, t, hfind, hrun, rfl⟩ := run_onTree_ok hput
      have hkept := BTree.root_of_put_ok (fun hsplits => hno ⟨root, b, t, hfind, hsplits, hrun⟩) hrun
      dsimp only at hkept
      show RootsRecorded { s with pager := t.pager, btrees := s.btrees.assign table (some t.rootPageId) }
      rw [hkept]
      exact h.assignSame t.pager hfind

/-- The loop of `commit`. -/
theorem rootsRecorded_promoteAll {txn seq : UInt64} {tables : List Bytes}
    {s : LocalFileStorageProvider} (h : RootsRecorded s)
    (hno : ∀ done table rest s₁ root es, tables = done ++ table :: rest →
      (promoteAll txn seq done).run s = .ok () s₁ → s₁.btrees.find table = some (some root) →
      BTree.scanAll ⟨s₁.pager, root⟩ = .ok es →
      ¬ BTree.SplitThenThrows ⟨s₁.pager, root⟩ (promoted txn seq es)) :
    RootsRecorded (endState ((promoteAll txn seq tables).run s)) := by
  induction tables generalizing s with
  | nil => exact h
  | cons table tables ih =>
    rw [promoteAll, EStateM.run_bind]
    cases htree : (onTree table (promote txn seq)).run s with
    | error e s₁ =>
      refine rootsRecorded_of_onTree_error h (fun root f t hfind hx => ?_) htree
      rw [promote] at hx
      rw [run_reading_bind_eq_error] at hx
      obtain ⟨-, rfl⟩ | ⟨es, hscan, hx⟩ := hx
      · rfl
      rw [run_bind_eq_error] at hx
      obtain hx | ⟨_, _, -, hx⟩ := hx
      · exact BTree.root_of_putAll_error (hno [] table tables s root es rfl rfl hfind hscan) hx
      · cases hx
    | ok _ s₁ =>
      obtain ⟨root, t, -, -, rfl⟩ := run_onTree_ok htree
      have hmoved := @RootsRecorded.assignMoved _ table h t.pager t.rootPageId
      dsimp only
      rw [EStateM.run_bind]
      cases hsync : (syncRoot table).run _ with
      | error e s₂ => exact absurd hsync hmoved.syncRoot_ne_error
      | ok _ s₂ =>
        refine ih (hmoved.recorded hsync) fun done table' rest s₃ root' es hsplit hrun => ?_
        refine hno (table :: done) table' rest s₃ root' es (by rw [hsplit, List.cons_append]) ?_
        rw [promoteAll, EStateM.run_bind, htree]
        dsimp only
        rw [EStateM.run_bind, hsync]
        exact hrun

theorem rootsRecorded_commit {s : LocalFileStorageProvider} {txn seq : UInt64} (h : RootsRecorded s)
    (hno : ¬ CommitLosesRoot s txn seq) : RootsRecorded (endState ((commit txn seq).run s)) := by
  have hall := rootsRecorded_promoteAll h fun done table rest s₁ root es hsplit hrun hfind hscan hlost =>
    hno ⟨done, table, rest, s₁, root, es, hsplit, hrun, hfind, hscan, hlost⟩
  have hsave : Preserves RootsRecorded (do
      saveMetadata
      modify fun s => { s with visibleSeq := if s.visibleSeq < seq then seq else s.visibleSeq }
      return DbError.sentinel : EStateM Fault LocalFileStorageProvider DbError) :=
    .bind preserves_rootsRecorded_saveMetadata fun _ => .bind (.modify fun _ h => h) fun _ => .pure _
  rw [commit]
  rw [EStateM.run_bind, EStateM.run_get]
  dsimp only
  rw [EStateM.run_bind]
  cases hrun : (promoteAll txn seq (s.btrees.entries.map Prod.fst)).run s with
  | error e s₁ =>
    rw [hrun] at hall
    exact hall
  | ok _ s₁ =>
    rw [hrun] at hall
    exact hsave s₁ hall

/-! ## Leaves that take their entries -/

/-- In a tree that is laid out properly a version that splits the root overflows the only leaf. -/
theorem Rep.leaf_of_splitsRoot {t : BTree} {L : Layout} {others : List PageId} {e : LeafEntry}
    (h : Rep t L others) (hroot : BTree.SplitsRoot t e) :
    ∃ pre es post, L.leaves = pre ++ (L.target e.key, es) :: post ∧ ¬ BTree.occupied e es = true ∧
      Overflows (BTree.insertEntry e es) ∧ L.index = none := by
  obtain ⟨leafId, leaf, root, hfind, hload, hrootload, hocc, hsplits, htype⟩ := hroot
  obtain ⟨pre, es, post, hsplit⟩ := h.exists_leaf e.key
  rw [h.findLeaf_eq] at hfind
  cases hfind
  rw [h.loadNode_leaf hsplit] at hload
  cases hload
  have hsmall := h.small (L.target e.key, es) (by rw [hsplit]; simp)
  refine ⟨pre, es, post, hsplit, hocc, (overflows_iff hsmall).1 hsplits, ?_⟩
  cases hix : L.index with
  | none => rfl
  | some ies =>
    have hindex := h.root
    rw [Layout.RootAt, hix] at hindex
    rw [hindex.1] at hrootload
    cases hrootload
    rcases htype with htype | ⟨p, halloc⟩
    · cases htype
    · -- the allocator does not hand out a page in use
      have hnodup := (Pager.allocatePage_ok h.owns halloc).1.nodup
      have hfresh := (List.nodup_cons.1 (List.nodup_append.1 hnodup).2.1).1
      refine absurd (List.mem_append_left _ ?_) hfresh
      rw [Layout.pages, hix]
      exact List.mem_cons_self

/-- A root leaf that overflows is below the root afterwards. -/
theorem Rep.root_ne_of_overflow {t t' : BTree} {L : Layout} {others : List PageId} {e : LeafEntry}
    {es : List LeafEntry} {pre post : Leaves} {b : Bool} (h : Rep t L others) (hix : L.index = none)
    (hsplit : L.leaves = pre ++ (L.target e.key, es) :: post)
    (hocc : ¬ BTree.occupied e es = true) (hover : Overflows (BTree.insertEntry e es))
    (hput : (BTree.put e).run t = .ok b t') : t'.rootPageId ≠ t.rootPageId := by
  obtain ⟨L', hstep, hrep, -⟩ := h.put_ok hput
  have hpages : L.leaves.pages = [t.rootPageId] := by
    have hroot := h.root
    rwa [Layout.RootAt, hix] at hroot
  have hsame : ∀ {pre' post' : Leaves} {es' : List LeafEntry},
      L.leaves = pre' ++ (L.target e.key, es') :: post' → es' = es := by
    intro pre' post' es' hsplit'
    rw [← Layout.entriesAt_eq h.nodup_leafPages hsplit', Layout.entriesAt_eq h.nodup_leafPages hsplit]
  cases hstep with
  | occupied hsplit' hocc' => exact absurd (hsame hsplit' ▸ hocc') hocc
  | inLeaf hsplit' hocc' hover' => exact absurd hover (hsame hsplit' ▸ hover')
  | newRoot hsplit' hocc' hover' hright' hix' =>
    -- the old root is a leaf of the new layout, and its root has a page of its own
    have hnodup := (List.nodup_append.1 (List.nodup_append.1 hrep.owns.nodup).2.1).1
    have htarget : L.target e.key ∈ L.leaves.pages := by
      rw [hsplit']
      exact List.mem_map_of_mem (List.mem_append_right _ List.mem_cons_self)
    rw [hpages, List.mem_singleton] at htarget
    intro hkept
    refine (List.nodup_cons.1 hnodup).1 ?_
    rw [hkept, ← htarget]
    exact List.mem_map_of_mem (List.mem_append_right _ List.mem_cons_self)
  | newSeparator hsplit' hocc' hover' hright' hix' hlen' =>
    rw [hix] at hix'
    cases hix'

/-- Versions that all go in lose no root. -/
theorem BTree.not_splitThenThrows_of_putAll {es : List LeafEntry} {t t' : BTree} {bs : List Bool}
    (h : (putAll es).run t = .ok bs t') : ¬ t.SplitThenThrows es := by
  induction es generalizing t bs with
  | nil => exact id
  | cons e es ih =>
    obtain ⟨b, t₁, bs', hput, hrest, -⟩ := run_putAll_cons.1 h
    rintro ⟨b', t₂, hput', hlost⟩
    rw [hput] at hput'
    cases hput'
    rcases hlost with ⟨-, f, t₃, hthrown⟩ | hlater
    · rw [hrest] at hthrown
      cases hthrown
    · exact ih hrest hlater

namespace LeafTable

variable {schema : Schema} {root : PageId} {visibleSeq txn seq : UInt64} {es : List LeafEntry}
  {s : LocalFileStorageProvider}

/-- A tombstone that the leaf takes loses no root. -/
theorem not_losesRoot_remove (h : LeafTable schema root visibleSeq es s) {key : Value}
    (htakes : LeafTakes es [removeVersion txn key]) :
    ¬ LosesRoot s (.remove txn schema.table key) := by
  rintro ⟨root', b, t, hfind, hsplits, -⟩
  rw [h.find] at hfind
  cases hfind
  obtain ⟨pre, es', post, hsplit, -, hover, -⟩ := h.rep.leaf_of_splitsRoot hsplits
  obtain ⟨-, -, -, rfl⟩ := Leaves.eq_of_singleton hsplit
  exact htakes.cons.1 hover

/-- A commit whose versions the leaf takes loses no root. -/
theorem not_losesRoot_commit (h : LeafTable schema root visibleSeq es s)
    (htakes : LeafTakes es (promoted txn seq es)) : ¬ LosesRoot s (.commit txn seq) := by
  rintro ⟨done, table, rest, s₁, root', es', htables, hrun, hfind, hscan, hlost⟩
  have hnames : [schema.table] = done ++ table :: rest := by
    rw [← htables, h.sound.btrees]
    rfl
  cases done with
  | nil =>
    cases hnames
    cases hrun
    rw [h.find] at hfind
    cases hfind
    rw [h.scanAll_eq] at hscan
    cases hscan
    obtain ⟨bs, t, hputs, -⟩ := h.rep.putAll_one_leaf htakes
    exact BTree.not_splitThenThrows_of_putAll hputs hlost
  | cons name done =>
    have hlength := congrArg List.length hnames
    simp at hlength

end LeafTable

/-! ## Runs -/

/-- A call keeps the roots recorded unless it loses one. -/
theorem rootsRecorded_exec {s : LocalFileStorageProvider} {op : Op} (h : RootsRecorded s)
    (hno : ¬ LosesRoot s op) : RootsRecorded (endState (op.exec.run s)) := by
  cases op with
  | createTable schema => exact preserves_rootsRecorded_createTable schema s h
  | dropTable name => exact preserves_rootsRecorded_dropTable name s h
  | alterTable name spec => exact preserves_rootsRecorded_alterTable name spec s h
  | put txn table key row => exact preserves_rootsRecorded_put txn table key row s h
  | remove txn table key => exact rootsRecorded_remove h hno
  | prepare txn => exact h
  | commit txn seq => exact rootsRecorded_commit h hno
  | commitNext txn =>
    exact rootsRecorded_commit (s := { s with internalSeq := s.internalSeq + 1 }) h hno
  | abort txn => exact h

/-- A call of an operation, and the state it leaves also when it throws. A call that does not end or
is undefined behaviour leaves none. -/
def Op.next (s : LocalFileStorageProvider) (op : Op) : Option LocalFileStorageProvider :=
  match op.exec.run s with
  | .ok _ s' => some s'
  | .error e s' => if e.isThrown then some s' else none

theorem Op.next_eq_of_ok {s s' : LocalFileStorageProvider} {op : Op} {r : DbError}
    (h : op.exec.run s = .ok r s') : Op.next s op = some s' := by
  rw [Op.next, h]

theorem Op.eq_endState {s s' : LocalFileStorageProvider} {op : Op} (h : Op.next s op = some s') :
    s' = endState (op.exec.run s) := by
  rw [Op.next] at h
  cases hrun : op.exec.run s with
  | ok r s₁ =>
    rw [hrun] at h
    exact (Option.some.inj h).symm
  | error e s₁ =>
    rw [hrun] at h
    dsimp only at h
    split_ifs at h
    exact (Option.some.inj h).symm

theorem rootsRecorded_treesOf {s : LocalFileStorageProvider} (h : s.btrees = treesOf s.tables) :
    RootsRecorded s := by
  intro table
  rw [h]
  rw [AssocMap.find]
  rw [entries_treesOf]
  exact AssocMap.lookup_map (fun _ info => some info.rootPageId) table s.tables.entries

/-- Opening a file makes the trees from the recorded roots, whatever the file holds. -/
theorem rootsRecorded_openFile {file : Image} {capacity : Nat} {h : capacity < 2 ^ 32}
    {s : LocalFileStorageProvider}
    (hopen : (openFile file).run (LocalFileStorageProvider.new capacity h) = .ok .sentinel s) :
    RootsRecorded s := by
  rw [openFile] at hopen
  rw [EStateM.run_bind, EStateM.run_get] at hopen
  dsimp only at hopen
  rw [if_neg (by simp [LocalFileStorageProvider.new])] at hopen
  cases hpager : Pager.openFile.run (Pager.unloaded file (LocalFileStorageProvider.new capacity h).pager.capacity
      (LocalFileStorageProvider.new capacity h).pager.capacity_lt) with
  | error e p =>
    rw [hpager] at hopen
    cases e <;> cases hopen
  | ok _ p =>
    rw [hpager] at hopen
    dsimp only at hopen
    rw [EStateM.run_bind, EStateM.run_set] at hopen
    dsimp only at hopen
    split_ifs at hopen with hcount
    · -- a new file has no tables
      have hnone : RootsRecorded { LocalFileStorageProvider.new capacity h with pager := p } :=
        fun _ => rfl
      obtain ⟨id, s₁, halloc, hopen⟩ := run_bind_eq_ok.1 hopen
      have hs₁ := (preserves_rootsRecorded_onPager _).of_ok hnone halloc
      rw [EStateM.run_bind, EStateM.run_modify] at hopen
      dsimp only at hopen
      obtain ⟨_, s₂, hsave, hopen⟩ := run_bind_eq_ok.1 hopen
      have hs₂ := preserves_rootsRecorded_saveMetadata.of_ok (s := { s₁ with metaPageId := id }) hs₁ hsave
      cases hopen
      exact hs₂
    · rw [EStateM.run_bind, EStateM.run_modify] at hopen
      dsimp only at hopen
      obtain ⟨ok, s₁, hload, hopen⟩ := run_bind_eq_ok.1 hopen
      have hbtrees : s₁.btrees = .empty := by
        rw [LocalFileStorageProvider.loadMetadata] at hload
        rw [EStateM.run_bind, EStateM.run_get] at hload
        dsimp only at hload
        split at hload
        · cases hload
          rfl
        · cases hload
          rfl
      cases ok with
      | false => cases hopen
      | true =>
        cases hopen
        apply rootsRecorded_treesOf
        show List.foldl _ s₁.btrees _ = _
        rw [hbtrees]
        rfl

/-- In every run of calls on an opened file, calls that throw included, of which none loses a root,
the recorded roots are those of the trees in every state. -/
theorem roots_recorded {file : Image} {capacity : Nat} {h : capacity < 2 ^ 32}
    {s₀ s : LocalFileStorageProvider} {trace : List (LocalFileStorageProvider × Op)}
    (hopen : (openFile file).run (LocalFileStorageProvider.new capacity h) = .ok .sentinel s₀)
    (hrun : Run Op.next s₀ trace s) (hkept : ∀ p ∈ trace, ¬ LosesRoot p.1 p.2) :
    RootsRecorded s := by
  refine hrun.invariant_of_forall (rootsRecorded_openFile hopen) ?_ hkept
  intro s op s' hs hnext hno
  rw [Op.eq_endState hnext]
  exact rootsRecorded_exec hs hno

/-- A row, a tombstone, a commit, and a row of 4000 bytes that splits the root. -/
def splittingOps : List Op := [.createTable (emptySchema (ascii "t")),
  .put 1 (ascii "t") (.int64 1) Tuple.empty, .remove 1 (ascii "t") (.int64 2), .commit 1 1,
  .put 2 (ascii "t") (.int64 3) (wideRow 3 0 2 3956).payload]

/-- What the leaf holds after the commit. -/
def fourVersions : List LeafEntry := [row 1 1 1 false, row 1 0 1 false,
  { removeVersion 1 (.int64 2) with commitSeq := 1 }, removeVersion 1 (.int64 2)]

/-- The row of 4000 bytes does not fit beside them. -/
theorem fourVersions_overflows : ¬ BTree.occupied (wideRow 3 0 2 3956) fourVersions = true ∧
    Overflows (BTree.insertEntry (wideRow 3 0 2 3956) fourVersions) ∧
    approxBytes (leftHalf (BTree.insertEntry (wideRow 3 0 2 3956) fourVersions)) ≤ 4080 ∧
    approxBytes (rightHalf (BTree.insertEntry (wideRow 3 0 2 3956) fourVersions)) ≤ 4080 := by
  have hinsert : BTree.insertEntry (wideRow 3 0 2 3956) fourVersions =
      fourVersions ++ [wideRow 3 0 2 3956] := insertEntry_last (by decide)
  have hwide : approxBytes [wideRow 3 0 2 3956] = 4000 := by
    rw [approxBytes_cons, size_wideRow]
    rfl
  have hright : rightHalf (fourVersions ++ [wideRow 3 0 2 3956]) =
      fourVersions.drop 2 ++ [wideRow 3 0 2 3956] := rfl
  rw [hinsert, hright]
  refine ⟨by decide, Or.inr ?_, show approxBytes (fourVersions.take 2) ≤ 4080 by decide, ?_⟩
  · rw [approxBytes_append, hwide, show approxBytes fourVersions = 136 by decide]
    omega
  · rw [approxBytes_append, hwide, show approxBytes (fourVersions.drop 2) = 68 by decide]
    omega

theorem roots_recorded_splitting : ∃ s₀ s₁ s trace root root',
    (openFile []).run (LocalFileStorageProvider.new 16 (by decide)) = .ok .sentinel s₀ ∧
      Op.next s₀ (.createTable (emptySchema (ascii "t"))) = some s₁ ∧ Run Op.next s₀ trace s ∧
      trace.map Prod.snd = splittingOps ∧ s₁.btrees.find (ascii "t") = some (some root) ∧
      s.btrees.find (ascii "t") = some (some root') ∧ root' ≠ root ∧ RootsRecorded s := by
  obtain ⟨s₀, s₁, root, hopen, hcreate, htable₁, hroom₁⟩ := exists_leafTable
  obtain ⟨s₂, hput₂, htable₂, hroom₂⟩ :=
    htable₁.put rfl (show LeafTakes [] [⟨.int64 1, 0, 1, false, Tuple.empty⟩] by decide)
  have htakes₃ : LeafTakes (leafAfter [] [row 1 0 1 false]) [removeVersion 1 (.int64 2)] := by decide
  obtain ⟨s₃, hremove₃, htable₃, hroom₃⟩ := htable₂.remove htakes₃
  have htakes₄ : LeafTakes [row 1 0 1 false, removeVersion 1 (.int64 2)]
    (promoted 1 1 [row 1 0 1 false, removeVersion 1 (.int64 2)]) := by decide
  obtain ⟨s₄, hcommit₄, htable₄, hroom₄⟩ := htable₃.commit htakes₄
  have hrep₄ : Rep ⟨s₄.pager, root⟩ ⟨none, [(root, fourVersions)]⟩ [1] := htable₄.rep
  obtain ⟨hocc, hover, hleft, hright⟩ := fourVersions_overflows
  obtain ⟨t, x, first, rest, hput₅, -⟩ := hrep₄.put_split_leaf hocc hover
    (show 2 ≤ s₄.pager.room by omega) hleft hright
  have hmoved := hrep₄.root_ne_of_overflow rfl (show _ = [] ++ (root, fourVersions) :: [] from rfl) hocc
    hover hput₅
  have hcall₅ := @run_put_of_tree s₄ 2 (ascii "t") (.int64 3) root t (wideRow 3 0 2 3956).payload true
    rfl htable₄.find hput₅
  have hnext₁ : Op.next s₀ (.createTable (emptySchema (ascii "t"))) = some s₁ :=
    Op.next_eq_of_ok hcreate
  have hnext₂ : Op.next s₁ (.put 1 (ascii "t") (.int64 1) Tuple.empty) = some s₂ :=
    Op.next_eq_of_ok hput₂
  have hnext₃ : Op.next s₂ (.remove 1 (ascii "t") (.int64 2)) = some s₃ := Op.next_eq_of_ok hremove₃
  have hnext₄ : Op.next s₃ (.commit 1 1) = some s₄ := Op.next_eq_of_ok hcommit₄
  have hnext₅ := @Op.next_eq_of_ok s₄ _ (.put 2 (ascii "t") (.int64 3) (wideRow 3 0 2 3956).payload) _
    hcall₅
  have hrun := ((((Run.nil.snoc hnext₁).snoc hnext₂).snoc hnext₃).snoc hnext₄).snoc hnext₅
  refine ⟨s₀, s₁, _, _, root, t.rootPageId, hopen, hnext₁, hrun, rfl, htable₁.find,
    AssocMap.find_assign_self _ _ _, hmoved, roots_recorded hopen hrun ?_⟩
  simp only [List.nil_append, List.cons_append, List.forall_mem_cons, List.not_mem_nil]
  exact ⟨id, id, htable₂.not_losesRoot_remove htakes₃, htable₃.not_losesRoot_commit htakes₄, id,
    fun p hp => absurd hp id⟩

/-! ## A tombstone that splits the root -/

/-- In a tree that is laid out properly a version that splits the root moves it. -/
theorem Rep.root_ne_of_splitsRoot {t t' : BTree} {L : Layout} {others : List PageId} {e : LeafEntry}
    {b : Bool} (h : Rep t L others) (hroot : BTree.SplitsRoot t e)
    (hput : (BTree.put e).run t = .ok b t') : t'.rootPageId ≠ t.rootPageId := by
  obtain ⟨pre, es, post, hsplit, hocc, hover, hix⟩ := h.leaf_of_splitsRoot hroot
  exact h.root_ne_of_overflow hix hsplit hocc hover hput

/-- As long as the tables are laid out as trees, the condition on `remove` is exact: a call that
splits a root loses it. -/
theorem Sound.remove_loses_root {s : LocalFileStorageProvider} {F : List TableTree} (h : Sound s F)
    {txn : UInt64} {table : Bytes} {key : Value} (hrec : RootsRecorded s)
    (hlost : LosesRoot s (.remove txn table key)) :
    ∃ s', (remove txn table key).run s = .ok .sentinel s' ∧ ¬ RootsRecorded s' := by
  obtain ⟨root, b, t, hfind, hsplits, hput⟩ := hlost
  refine ⟨_, run_remove_of_tree hfind hput, fun hrec' => ?_⟩
  obtain ⟨A, f, B, rfl, rfl, hroot⟩ := h.exists_tree hfind
  cases hroot
  have hmoved := h.forest.rep.root_ne_of_splitsRoot hsplits hput
  obtain ⟨info, hinfo, hold⟩ := hrec.find_table hfind
  obtain ⟨info', hinfo', hnew⟩ := hrec'.find_table (AssocMap.find_assign_self _ _ _)
  have hsame : s.tables.find f.name = some info' := hinfo'
  rw [hinfo] at hsame
  cases hsame
  exact hmoved (hnew.symm.trans hold)

/-- A row of 4000 bytes fills the root leaf, and the tombstone for another key splits it: the live
tree has a new root, and the registry has the old one. -/
theorem tombstone_loses_root : ∃ s₀ s trace,
    (openFile []).run (LocalFileStorageProvider.new 16 (by decide)) = .ok .sentinel s₀ ∧
      Run Op.next s₀ trace s ∧ trace.map Prod.snd = [.createTable (emptySchema (ascii "t")),
        .put 1 (ascii "t") (.int64 1) (wideRow 1 0 1 3956).payload,
        .remove 1 (ascii "t") (.int64 2)] ∧
      ∃ info root, s.tables.find (ascii "t") = some info ∧
        s.btrees.find (ascii "t") = some (some root) ∧ info.rootPageId ≠ root := by
  obtain ⟨s₀, s₁, root, hopen, hcreate, htable, hroom⟩ := exists_leafTable
  have hsize := size_wideRow 1 0 1 3956
  have htakes : LeafTakes [] [wideRow 1 0 1 3956] := by
    constructor
    · simp
    · simp [approxBytes, hsize]
  obtain ⟨s₂, hput₁, htable₂, hroom₂⟩ := htable.put rfl htakes
  have hrep₁ : Rep ⟨s₂.pager, root⟩ ⟨none, [(root, [wideRow 1 0 1 3956])]⟩ [1] := htable₂.rep
  -- the tombstone goes behind the row
  have hins : BTree.insertEntry (removeVersion 1 (.int64 2)) [wideRow 1 0 1 3956] =
      [wideRow 1 0 1 3956, removeVersion 1 (.int64 2)] := by
    refine insertEntry_last fun x hx => ?_
    rw [List.mem_singleton.1 hx]
    exact not_goesBefore_of_rank_lt rfl rfl (by decide)
  have hover : Overflows (BTree.insertEntry (removeVersion 1 (.int64 2)) [wideRow 1 0 1 3956]) := by
    rw [hins]
    refine Or.inr ?_
    have htomb : (removeVersion 1 (.int64 2)).size = 34 := by decide
    simp [approxBytes, hsize, htomb]
  have hocc : ¬ BTree.occupied (removeVersion 1 (.int64 2)) [wideRow 1 0 1 3956] = true := by decide
  have hleft : approxBytes (leftHalf (BTree.insertEntry (removeVersion 1 (.int64 2))
      [wideRow 1 0 1 3956])) ≤ 4080 := by
    rw [hins]
    simp [leftHalf, approxBytes, hsize]
  have hright : approxBytes (rightHalf (BTree.insertEntry (removeVersion 1 (.int64 2))
      [wideRow 1 0 1 3956])) ≤ 4080 := by
    rw [hins]
    exact show approxBytes [removeVersion 1 (.int64 2)] ≤ 4080 by decide
  obtain ⟨t', x, first, rest, htomb, -⟩ := hrep₁.put_split_leaf hocc hover
    (show 2 ≤ s₂.pager.room by omega) hleft hright
  have hremove := @run_remove_of_tree s₂ 1 (ascii "t") (.int64 2) root t' true htable₂.find htomb
  have hlost := hrep₁.root_ne_of_overflow rfl (show _ = [] ++ (root, _) :: [] from rfl) hocc hover htomb
  have hnext₁ : Op.next s₀ (.createTable (emptySchema (ascii "t"))) = some s₁ :=
    Op.next_eq_of_ok hcreate
  have hnext₂ : Op.next s₁ (.put 1 (ascii "t") (.int64 1) (wideRow 1 0 1 3956).payload) = some s₂ :=
    Op.next_eq_of_ok hput₁
  have hnext₃ := @Op.next_eq_of_ok s₂ _ (.remove 1 (ascii "t") (.int64 2)) _ hremove
  refine ⟨s₀, _, _, hopen, ((Run.nil.snoc hnext₁).snoc hnext₂).snoc hnext₃, rfl,
    ⟨emptySchema (ascii "t"), root, 0⟩, t'.rootPageId, find_of_entries htable₂.tables,
    AssocMap.find_assign_self _ _ _, ?_⟩
  exact fun hsame => hlost hsame.symm

end OpenDB
