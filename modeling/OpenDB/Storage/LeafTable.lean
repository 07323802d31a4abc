import OpenDB.Storage.Operations

/-!
# A table on one leaf

As long as the entries of the only table of a file fit its root leaf, `put`, `remove` and `commit`
return, no page is allocated, and `leafAfter` says what the leaf holds in the end.
-/

set_option autoImplicit false

namespace OpenDB

open OpenDB.Library

open LocalFileStorageProvider

/-- The steps of a tree of one leaf. -/
theorem PutSteps.leafAfter {root : PageId} {es ps : List LeafEntry} {L' : Layout}
    (h : PutSteps ps ⟨none, [(root, es)]⟩ L') (htakes : LeafTakes es ps) :
    L' = ⟨none, [(root, OpenDB.leafAfter es ps)]⟩ := by
  induction ps generalizing es with
  | nil =>
    cases h
    rfl
  | cons e ps ih =>
    obtain ⟨hover, hrest⟩ := htakes.cons
    cases h with
    | cons hnodup hput hsteps =>
      cases hput with
      | occupied hsplit hocc =>
        obtain ⟨-, -, -, rfl⟩ := Leaves.eq_of_singleton hsplit
        rw [if_pos hocc] at hrest
        rw [ih hsteps hrest, OpenDB.leafAfter, if_pos hocc]
      | inLeaf hsplit hocc hover' =>
        obtain ⟨rfl, rfl, htarget, rfl⟩ := Leaves.eq_of_singleton hsplit
        rw [if_neg hocc] at hrest
        rw [htarget, List.nil_append] at hsteps
        rw [ih hsteps hrest, OpenDB.leafAfter, if_neg hocc]
      | newRoot hsplit hocc hover' =>
        obtain ⟨-, -, -, rfl⟩ := Leaves.eq_of_singleton hsplit
        exact absurd hover' hover
      | newSeparator hsplit hocc hover' =>
        obtain ⟨-, -, -, rfl⟩ := Leaves.eq_of_singleton hsplit
        exact absurd hover' hover

/-! ## Calls on one tree -/

section Entries

variable {β : Type} {m : AssocMap Bytes β} {table : Bytes} {b : β}

theorem find_of_entries (h : m.entries = [(table, b)]) : m.find table = some b := by
  refine AssocMap.find_of_mem (e := (table, b)) ?_
  rw [h]
  exact List.mem_cons_self

theorem entries_assign_one (h : m.entries = [(table, b)]) (b' : β) :
    (m.assign table b').entries = [(table, b')] := by
  show assign table b' m.entries = _
  rw [h]
  exact assign_append_cons (A := []) List.not_mem_nil

end Entries

section OneTree

variable {s : LocalFileStorageProvider} {txn seq : UInt64} {table : Bytes} {key : Value} {root : PageId}
  {t : BTree}

theorem tableInfo_of_entries {info : TableInfo} (h : s.tables.entries = [(table, info)]) :
    s.tableInfo table = info := by
  rw [tableInfo, find_of_entries h]
  rfl

/-- `put` of a row with a key of its own. -/
theorem run_put_of_tree {row : Tuple} {b : Bool} (hkey : key.isNull = false)
    (hfind : s.btrees.find table = some (some root))
    (hput : (BTree.put ⟨key, 0, txn, false, row⟩).run ⟨s.pager, root⟩ = .ok b t) :
    (put txn table key row).run s = .ok .sentinel (LocalFileStorageProvider.recordRoot
      { s with pager := t.pager, btrees := s.btrees.assign table (some t.rootPageId) } table
        t.rootPageId) := by
  have htree : (onTree table (BTree.put ⟨key, 0, txn, false, row⟩)).run s =
      .ok b { s with pager := t.pager, btrees := s.btrees.assign table (some t.rootPageId) } := by
    show onTree table _ s = _
    rw [onTree, hfind]
    dsimp only
    rw [hput]
  have hsync : ∀ s' : LocalFileStorageProvider, s'.btrees.find table = some (some t.rootPageId) →
      (syncRoot table).run s' = .ok () (s'.recordRoot table t.rootPageId) := by
    intro s' hfind'
    show syncRoot table s' = _
    rw [syncRoot, hfind']
    rfl
  rw [put, effectiveRow]
  rw [EStateM.run_bind, EStateM.run_get]
  dsimp only
  rw [hfind, if_neg (by simp), EStateM.run_bind, hkey, if_neg (by simp), EStateM.run_pure]
  dsimp only
  rw [EStateM.run_bind, htree]
  dsimp only
  rw [EStateM.run_bind, hsync _ (AssocMap.find_assign_self _ _ _)]
  rfl

theorem run_remove_of_tree {b : Bool} (hfind : s.btrees.find table = some (some root))
    (hput : (BTree.put (removeVersion txn key)).run ⟨s.pager, root⟩ = .ok b t) :
    (remove txn table key).run s = .ok .sentinel
      { s with pager := t.pager, btrees := s.btrees.assign table (some t.rootPageId) } := by
  have htree : (onTree table (BTree.put ⟨key, 0, txn, true, Tuple.empty⟩)).run s =
      .ok b { s with pager := t.pager, btrees := s.btrees.assign table (some t.rootPageId) } := by
    show onTree table _ s = _
    rw [onTree, hfind]
    dsimp only
    rw [show (⟨key, 0, txn, true, Tuple.empty⟩ : LeafEntry) = removeVersion txn key from rfl, hput]
  rw [remove]
  rw [EStateM.run_bind, EStateM.run_get]
  dsimp only
  rw [hfind, if_neg (by simp), EStateM.run_bind, htree]
  rfl

/-- A commit of a provider with one table. -/
theorem run_commit_of_tree {es : List LeafEntry} {bs : List Bool}
    (htables : s.btrees.entries = [(table, some root)])
    (hscan : BTree.scanAll ⟨s.pager, root⟩ = .ok es)
    (hputs : (BTree.putAll (promoted txn seq es)).run ⟨s.pager, root⟩ = .ok bs t)
    (hone : s.metaPageId ≠ 0 ∧ s.metaPageId.toNat < t.pager.header.pageCount.toNat)
    (hfits : (LocalFileStorageProvider.recordRoot
      { s with pager := t.pager, btrees := s.btrees.assign table (some t.rootPageId) } table
        t.rootPageId).metadata.Fits) :
    ∃ s', (commit txn seq).run s = .ok .sentinel s' := by
  have hfind := find_of_entries htables
  have hpromote : (promote txn seq).run ⟨s.pager, root⟩ = .ok () t := by
    rw [promote, EStateM.run_bind, run_reading_ok hscan]
    dsimp only
    rw [EStateM.run_bind, show List.map _ _ = promoted txn seq es from rfl, hputs]
    rfl
  set s₁ : LocalFileStorageProvider :=
    { s with pager := t.pager, btrees := s.btrees.assign table (some t.rootPageId) } with hs₁
  have htree : (onTree table (promote txn seq)).run s = .ok () s₁ := by
    show onTree table _ s = _
    rw [onTree, hfind]
    dsimp only
    rw [hpromote]
  have hsync : (syncRoot table).run s₁ = .ok () (s₁.recordRoot table t.rootPageId) := by
    show syncRoot table s₁ = _
    rw [syncRoot, show s₁.btrees.find table = _ from AssocMap.find_assign_self _ _ _]
    rfl
  -- the only table is promoted and its root recorded
  have hall : (promoteAll txn seq (s.btrees.entries.map Prod.fst)).run s =
      .ok () (s₁.recordRoot table t.rootPageId) := by
    rw [htables, List.map_cons, List.map_nil, promoteAll, EStateM.run_bind, htree]
    dsimp only
    rw [EStateM.run_bind, hsync]
    rfl
  rcases saveMetadata_cases (s := s₁.recordRoot table t.rootPageId) hone.1 hone.2 with
    ⟨-, hsave⟩ | ⟨hbig, -⟩
  · set s₂ := (s₁.recordRoot table t.rootPageId).saved
    refine ⟨{ s₂ with visibleSeq := if s₂.visibleSeq < seq then seq else s₂.visibleSeq }, ?_⟩
    rw [commit, EStateM.run_bind, EStateM.run_get]
    dsimp only
    rw [EStateM.run_bind, hall]
    dsimp only
    rw [EStateM.run_bind, hsave]
    rfl
  · exact absurd hfits hbig

theorem LocalFileStorageProvider.tables_saveMetadata {s' : LocalFileStorageProvider}
    (h : saveMetadata.run s = .ok () s') : s'.tables = s.tables := by
  rw [saveMetadata] at h
  rw [EStateM.run_bind, EStateM.run_get] at h
  dsimp only at h
  cases hpage : encodeMetadata s.metadata with
  | error e =>
    rw [hpage] at h
    cases h
  | ok page =>
    rw [hpage] at h
    obtain ⟨written, t, hwrite, hlast⟩ := run_bind_eq_ok.1 h
    cases hlast
    change onPager _ s = _ at hwrite
    rw [onPager] at hwrite
    split at hwrite <;> cases hwrite
    rfl

/-- The registry of one table after a commit. -/
theorem tables_commit {s' : LocalFileStorageProvider} {r : DbError} {info : TableInfo}
    (htrees : s.btrees.entries = [(table, some root)]) (htables : s.tables.entries = [(table, info)])
    (hrun : (commit txn seq).run s = .ok r s') :
    ∃ root', s'.tables.entries = [(table, { info with rootPageId := root' })] := by
  rw [LocalFileStorageProvider.commit] at hrun
  rw [EStateM.run_bind, EStateM.run_get] at hrun
  dsimp only at hrun
  obtain ⟨_, s₁, hall, hrun⟩ := run_bind_eq_ok.1 hrun
  obtain ⟨_, s₂, hsave, hrun⟩ := run_bind_eq_ok.1 hrun
  rw [EStateM.run_bind, EStateM.run_modify] at hrun
  cases hrun
  rw [htrees, List.map_singleton, promoteAll] at hall
  obtain ⟨_, s₃, htree, hall⟩ := run_bind_eq_ok.1 hall
  obtain ⟨_, s₄, hsync, hall⟩ := run_bind_eq_ok.1 hall
  cases hall
  obtain ⟨root₁, t, -, -, rfl⟩ := run_onTree_ok htree
  obtain ⟨root₂, -, rfl⟩ := run_syncRoot_ok hsync
  refine ⟨root₂, ?_⟩
  show s₂.tables.entries = _
  rw [tables_saveMetadata hsave]
  show (s.tables.assign table { s.tableInfo table with rootPageId := root₂ }).entries = _
  rw [tableInfo_of_entries htables]
  exact entries_assign_one htables _

end OneTree

/-! ## The only table of a file -/

/-- The room that the metadata takes is that of the tables. -/
theorem Metadata.fits_congr {m m' : Metadata} (h : m'.tables.entries = m.tables.entries) :
    m'.Fits ↔ m.Fits := by
  show (metadataBytes m').length ≤ 4088 ↔ (metadataBytes m).length ≤ 4088
  simp only [metadataBytes, h, List.length_append, length_leBytes]

/-- The only table of the provider has these entries on its root leaf, and this is the number of the
last commit. -/
structure LeafTable (schema : Schema) (root : PageId) (visibleSeq : UInt64) (es : List LeafEntry)
    (s : LocalFileStorageProvider) : Prop where
  sound : Sound s [⟨schema.table, root, ⟨none, [(root, es)]⟩⟩]
  tables : s.tables.entries = [(schema.table, ⟨schema, root, 0⟩)]
  fits : s.metadata.Fits
  visibleSeq : s.visibleSeq = visibleSeq

namespace LeafTable

variable {schema : Schema} {root : PageId} {visibleSeq : UInt64} {es : List LeafEntry}
  {s : LocalFileStorageProvider}

theorem find (h : LeafTable schema root visibleSeq es s) : s.btrees.find schema.table = some (some root) :=
  Sound.find_tree (A := []) (B := []) h.sound

theorem rep (h : LeafTable schema root visibleSeq es s) : Rep ⟨s.pager, root⟩ ⟨none, [(root, es)]⟩ [1] :=
  Forest.rep (A := []) (B := []) h.sound.forest

theorem scanAll_eq (h : LeafTable schema root visibleSeq es s) : BTree.scanAll ⟨s.pager, root⟩ = .ok es := by
  have hall := h.rep.scanAll_eq
  rwa [show Layout.scanAll ⟨none, [(root, es)]⟩ = es by simp [Layout.scanAll, Leaves.entries]] at hall

/-- The calls of an operation that the leaf takes. -/
theorem grown (h : LeafTable schema root visibleSeq es s) {calls : TableTree → List LeafEntry}
    {s' : LocalFileStorageProvider} {F' : List TableTree} {ps : List LeafEntry}
    (hstep : RowStep calls s s' [⟨schema.table, root, ⟨none, [(root, es)]⟩⟩] F')
    (hcalls : calls ⟨schema.table, root, ⟨none, [(root, es)]⟩⟩ = ps) (htakes : LeafTakes es ps) :
    F' = [⟨schema.table, root, ⟨none, [(root, leafAfter es ps)]⟩⟩] ∧ s'.pager.room = s.pager.room := by
  have hgrown := hstep.grown
  have hsound := hstep.sound
  have haccounts := hstep.pager.accounts
  cases hgrown with
  | @cons _ f' _ F' hf hrest =>
    cases hrest
    obtain ⟨hname, hsteps⟩ := hf
    rw [hcalls] at hsteps
    have hlayout := hsteps.leafAfter htakes
    obtain ⟨name, root', layout⟩ := f'
    cases hname
    cases hlayout
    -- the root of a tree of one leaf is that leaf
    have hrep := Forest.rep (A := []) (B := []) hsound.forest
    obtain rfl : root' = root := (List.cons.inj hrep.root).1.symm
    exact ⟨rfl, Nat.add_right_cancel haccounts⟩

/-- One more version. -/
theorem put_one (h : LeafTable schema root visibleSeq es s) {e : LeafEntry} (htakes : LeafTakes es [e]) :
    ∃ b t, (BTree.put e).run ⟨s.pager, root⟩ = .ok b t ∧ t.rootPageId = root := by
  obtain ⟨bs, t, hrun, hrep, -⟩ := h.rep.putAll_one_leaf htakes
  obtain ⟨b, t₁, bs', hput, hnil, -⟩ := run_putAll_cons.1 hrun
  cases hnil
  exact ⟨b, t, hput, (List.cons.inj hrep.root).1.symm⟩

theorem put (h : LeafTable schema root visibleSeq es s) {txn : UInt64} {key : Value} {row : Tuple}
    (hkey : key.isNull = false) (htakes : LeafTakes es [⟨key, 0, txn, false, row⟩]) :
    ∃ s', (LocalFileStorageProvider.put txn schema.table key row).run s = .ok .sentinel s' ∧
      LeafTable schema root visibleSeq (leafAfter es [⟨key, 0, txn, false, row⟩]) s' ∧
      s'.pager.room = s.pager.room := by
  obtain ⟨b, t, hput, hroot⟩ := h.put_one htakes
  have hcall := run_put_of_tree hkey h.find hput
  obtain ⟨F', hstep, -⟩ := h.sound.put_ok hcall
  have hversion : s.putVersion txn schema.table key row = ⟨key, 0, txn, false, row⟩ := by
    rw [putVersion, hkey]
    rfl
  obtain ⟨rfl, hroom⟩ := h.grown hstep (by rw [hversion, callOn, if_pos rfl]) htakes
  have htables : (s.tables.assign schema.table
      { s.tableInfo schema.table with rootPageId := t.rootPageId }).entries =
      [(schema.table, ⟨schema, root, 0⟩)] := by
    rw [tableInfo_of_entries h.tables, hroot]
    exact entries_assign_one h.tables _
  exact ⟨_, hcall, ⟨hstep.sound, htables, (Metadata.fits_congr (htables.trans h.tables.symm)).2 h.fits,
    h.visibleSeq⟩, hroom⟩

theorem remove (h : LeafTable schema root visibleSeq es s) {txn : UInt64} {key : Value}
    (htakes : LeafTakes es [removeVersion txn key]) :
    ∃ s', (LocalFileStorageProvider.remove txn schema.table key).run s = .ok .sentinel s' ∧
      LeafTable schema root visibleSeq (leafAfter es [removeVersion txn key]) s' ∧
      s'.pager.room = s.pager.room := by
  obtain ⟨b, t, hput, -⟩ := h.put_one htakes
  have hcall := run_remove_of_tree h.find hput
  obtain ⟨F', hstep, -⟩ := h.sound.remove_ok hcall
  obtain ⟨rfl, hroom⟩ := h.grown hstep (if_pos rfl) htakes
  exact ⟨_, hcall, ⟨hstep.sound, h.tables, h.fits, h.visibleSeq⟩, hroom⟩

theorem commit (h : LeafTable schema root visibleSeq es s) {txn seq : UInt64}
    (htakes : LeafTakes es (promoted txn seq es)) :
    ∃ s', (LocalFileStorageProvider.commit txn seq).run s = .ok .sentinel s' ∧
      LeafTable schema root (if visibleSeq < seq then seq else visibleSeq)
        (leafAfter es (promoted txn seq es)) s' ∧
      s'.pager.room = s.pager.room := by
  obtain ⟨bs, t, hputs, hrep, -⟩ := h.rep.putAll_one_leaf htakes
  have hone := hrep.owns.range 1 (by simp)
  have hmeta : s.metaPageId = 1 := h.sound.metaPage
  have hrecorded : (LocalFileStorageProvider.recordRoot
      { s with pager := t.pager, btrees := s.btrees.assign schema.table (some t.rootPageId) }
        schema.table t.rootPageId).tables.entries = [(schema.table, ⟨schema, root, 0⟩)] := by
    show (s.tables.assign schema.table
      { s.tableInfo schema.table with rootPageId := t.rootPageId }).entries = _
    rw [tableInfo_of_entries h.tables, (List.cons.inj hrep.root).1.symm]
    exact entries_assign_one h.tables _
  obtain ⟨s', hcommit⟩ := run_commit_of_tree h.sound.btrees h.scanAll_eq hputs
    (by rw [hmeta]; exact hone) ((Metadata.fits_congr (hrecorded.trans h.tables.symm)).2 h.fits)
  obtain ⟨root', htables⟩ := tables_commit h.sound.btrees h.tables hcommit
  obtain ⟨s₁, F', hstep, hsync, -, -, -, rfl⟩ := h.sound.commit_ok hcommit
  have hscan : Layout.scanAll ⟨none, [(root, es)]⟩ = es := by simp [Layout.scanAll, Leaves.entries]
  obtain ⟨rfl, hroom⟩ := h.grown hstep (congrArg (promoted txn seq) hscan) htakes
  -- the root that the commit has recorded is that of the tree
  obtain ⟨info, hinfo, hroot⟩ := hsync _ List.mem_cons_self
  have hentries : s₁.tables.entries = _ := htables
  rw [find_of_entries hentries] at hinfo
  cases hinfo
  rw [show root' = root from hroot] at htables
  have hsaved := hstep.sound.saved
  refine ⟨_, hcommit, ⟨⟨hsaved.opened, hsaved.metaPage, hsaved.tables, hsaved.btrees, hsaved.forest,
    hsaved.version⟩, htables, (Metadata.fits_congr (htables.trans h.tables.symm)).2 h.fits, ?_⟩, ?_⟩
  · show (if s.visibleSeq < seq then seq else s.visibleSeq) = _
    rw [h.visibleSeq]
  · exact hstep.sound.room_saved.trans hroom

end LeafTable

/-- The first table of a new file, with thirteen pages that can still be allocated. -/
theorem exists_leafTable : ∃ s₀ s root,
    (openFile []).run (LocalFileStorageProvider.new 16 (by decide)) = .ok .sentinel s₀ ∧
      (createTable (emptySchema (ascii "t"))).run s₀ = .ok .sentinel s ∧
      LeafTable (emptySchema (ascii "t")) root 0 [] s ∧ s.pager.room = 13 := by
  obtain ⟨s₀, s, root, hopen, hcreate, htables⟩ := exists_first_table
  obtain ⟨hsound₀, rfl⟩ := sound_new hopen
  have hroom₀ : (blank (Pager.new 16 (by decide))).pager.room = 14 := by decide
  rcases hsound₀.createTable_ok hcreate with rfl | ⟨s₁, root', -, hsaved, hpager, htables'⟩
  · cases htables
  · have hroot : root' = root := by
      have hentries : s₁.tables.entries = s.tables.entries := by
        rw [hsaved.saved]
        rfl
      rw [htables', htables] at hentries
      cases hentries
      rfl
    subst hroot
    have haccounts := hpager.accounts
    rw [hroom₀] at haccounts
    change s₁.pager.room + 1 = 14 + 0 at haccounts
    refine ⟨_, s, root', hopen, hcreate, ⟨?_, htables, (fits_first_table htables).1, ?_⟩, ?_⟩
    · rw [hsaved.saved]
      exact hsaved.sound.saved
    · rw [hsaved.saved]
      exact hsaved.visibleSeq
    · rw [hsaved.saved, hsaved.sound.room_saved]
      omega

/-- A second table joins. -/
theorem LeafTable.createTable {schema schema' : Schema} {root : PageId} {visibleSeq : UInt64}
    {es : List LeafEntry} {s : LocalFileStorageProvider} (h : LeafTable schema root visibleSeq es s) (hname : schema'.table ≠ schema.table)
    (hcolumns : schema'.columns.find? (fun col => !accepts col.type) = none)
    (hroom : s.pager.room ≠ 0)
    (hfits : ∀ root', (Metadata.mk s.visibleSeq s.internalSeq
      (s.tables.assign schema'.table ⟨schema', root', 0⟩)).Fits) :
    ∃ s' root', (LocalFileStorageProvider.createTable schema').run s = .ok .sentinel s' ∧
      s'.tables.entries = [(schema.table, ⟨schema, root, 0⟩), (schema'.table, ⟨schema', root', 0⟩)] ∧
      Sound s' [⟨schema.table, root, ⟨none, [(root, es)]⟩⟩, TableTree.blank schema'.table root'] ∧
      s'.visibleSeq = visibleSeq := by
  have hnot : schema'.table ∉ [(⟨schema.table, root, ⟨none, [(root, es)]⟩⟩ : TableTree)].map
      TableTree.name := by
    rw [List.map_singleton, List.mem_singleton]
    exact hname
  obtain ⟨s', root', hcreate, htables⟩ := h.sound.exists_createTable hnot hcolumns hroom hfits
  have hentries : s'.tables.entries =
      [(schema.table, ⟨schema, root, 0⟩), (schema'.table, ⟨schema', root', 0⟩)] := by
    rw [htables]
    show assign schema'.table _ s.tables.entries = _
    rw [h.tables, assign_of_not_mem (by rw [List.map_singleton, List.mem_singleton]; exact hname)]
    rfl
  refine ⟨s', root', hcreate, hentries, ?_⟩
  rcases h.sound.createTable_ok hcreate with rfl | ⟨s₁, root₁, -, hsaved, -, htables₁⟩
  · rw [h.tables] at hentries
    cases hentries
  · have hroot : root₁ = root' := by
      have hfind := congrArg (fun m => m.find schema'.table) htables₁
      rw [show s₁.tables = s'.tables by rw [hsaved.saved]; rfl, htables] at hfind
      rw [AssocMap.find_assign_self, AssocMap.find_assign_self] at hfind
      cases hfind
      rfl
    rw [← hroot, hsaved.saved]
    exact ⟨hsaved.sound.saved, hsaved.visibleSeq.trans h.visibleSeq⟩

/-- A file is made, a row is committed in its table `t`, and a table `u` joins. -/
structure TwoTables (s₀ s₁ s₂ s₃ s : LocalFileStorageProvider) (root root' : PageId) : Prop where
  opened : (openFile []).run (LocalFileStorageProvider.new 16 (by decide)) = .ok .sentinel s₀
  created : (createTable (emptySchema (ascii "t"))).run s₀ = .ok .sentinel s₁
  stored : (put 1 (ascii "t") (.int64 7) Tuple.empty).run s₁ = .ok .sentinel s₂
  committed : (commit 1 1).run s₂ = .ok .sentinel s₃
  joined : (createTable (emptySchema (ascii "u"))).run s₃ = .ok .sentinel s
  tables : s.tables.entries = [(ascii "t", ⟨emptySchema (ascii "t"), root, 0⟩),
    (ascii "u", ⟨emptySchema (ascii "u"), root', 0⟩)]
  scan : s.scan 2 (ascii "t") = .ok [Tuple.empty]

theorem exists_twoTables : ∃ s₀ s₁ s₂ s₃ s root root', TwoTables s₀ s₁ s₂ s₃ s root root' := by
  obtain ⟨s₀, s₁, root, hopen, hcreate, hone, hroom₁⟩ := exists_leafTable
  obtain ⟨s₂, hput, htwo, hroom₂⟩ :=
    hone.put rfl (show LeafTakes [] [⟨.int64 7, 0, 1, false, Tuple.empty⟩] by decide)
  obtain ⟨s₃, hcommit, hthree, hroom₃⟩ := htwo.commit (show LeafTakes _ (promoted 1 1 _) by decide)
  obtain ⟨s, root', hjoin, htables, hsound, hvisible⟩ := @LeafTable.createTable _
    (emptySchema (ascii "u")) _ _ _ _ hthree (by decide) rfl (by omega) fun root' => by
      refine (@fits_bare_tables _ [(ascii "t", root), (ascii "u", root')] ?_
        (show 44 ≤ 4068 by decide)).1
      show assign (ascii "u") _ s₃.tables.entries = _
      rw [hthree.tables]
      rfl
  refine ⟨s₀, s₁, s₂, s₃, s, root, root', hopen, hcreate, hput, hcommit, hjoin, htables, ?_⟩
  have hfind : s.btrees.find (ascii "t") = some (some root) := Sound.find_tree (A := []) hsound
  have hrep := Forest.rep (A := []) hsound.forest
  rw [LocalFileStorageProvider.scan, scanTree, hfind, hvisible]
  dsimp only
  rw [show BTree.scan ⟨s.pager, root⟩ 2 _ = _ from hrep.scan_eq 2 _]
  rfl

end OpenDB
