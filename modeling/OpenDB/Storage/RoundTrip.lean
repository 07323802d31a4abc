import OpenDB.Storage.LeafTable

/-!
# Clean shutdown

Histories of operations and clean shutdowns in which every writing transaction has committed before
the provider is closed. The next process then finds the recorded roots to be those of the trees, and
with them the same tables, rows and counters, provided that the header page still carries the magic
number. It does exactly when the provider that was closed had made the file itself: a header that is
loaded leaves the magic number in memory at zero, and `close` writes that zero to page 0
(`roundTrip_iff`).
-/

set_option autoImplicit false

namespace OpenDB

open OpenDB.Library

open LocalFileStorageProvider

/-! ## What has to come back -/

/-- The number that the next null key of a table stands for, less one. -/
def LocalFileStorageProvider.autoId (s : LocalFileStorageProvider) (table : Bytes) : Option UInt64 :=
  (s.tables.find table).map TableInfo.autoId

/-- The same tables, the same rows for every reader, the same next keys. -/
structure SameContents (s s' : LocalFileStorageProvider) : Prop where
  tables : ∀ name, (s'.tables.find name).isSome = (s.tables.find name).isSome
  get : ∀ txn table key, s'.get txn table key = s.get txn table key
  scan : ∀ txn table, s'.scan txn table = s.scan txn table
  autoId : ∀ table, s'.autoId table = s.autoId table

/-- `close` and then `open` by a new provider, and everything is there again. -/
def RoundTrips (s : LocalFileStorageProvider) : Prop := ∃ s', Restart s s' ∧ SameContents s s'

/-- The metadata fits its page. -/
def FitsPage (s : LocalFileStorageProvider) : Prop := s.metadata.Fits ∧ s.metadata.Short

namespace Op

/-- The transactions with writes that are not committed, after an operation. -/
def writers (r : DbError) (W : List UInt64) : Op → List UInt64
  | .put txn .. | .remove txn .. => if r.isSentinel then txn :: W else W
  | .commit txn _ | .commitNext txn => W.filter fun t => t ≠ txn
  | _ => W

end Op

/-- Histories of a file: operations that return, and clean shutdowns when every writing transaction
has committed. The list names the transactions with writes that are not committed. -/
inductive History (capacity : Nat) (h : capacity < 2 ^ 32) :
    List UInt64 → LocalFileStorageProvider → Prop where
  | opened {r : DbError} {s : LocalFileStorageProvider}
      (hopen : (openFile []).run (LocalFileStorageProvider.new capacity h) = .ok r s) :
      History capacity h [] s
  | exec {op : Op} {r : DbError} {W : List UInt64} {s s' : LocalFileStorageProvider}
      (hist : History capacity h W s) (hcall : op.exec.run s = .ok r s') :
      History capacity h (op.writers r W) s'
  | restart {s s' : LocalFileStorageProvider} (hist : History capacity h [] s) (hfits : FitsPage s)
      (hrestart : Restart s s') : History capacity h [] s'

/-! ## Reads of the same trees -/

theorem Sound.find_tree_congr {s s' : LocalFileStorageProvider} {F : List TableTree} (h : Sound s F)
    (h' : Sound s' F) (table : Bytes) : s'.btrees.find table = s.btrees.find table := by
  simp only [AssocMap.find]
  rw [h.btrees, h'.btrees]

/-- Providers with the same trees and the same visible sequence number answer alike. -/
theorem Sound.reads_eq {s s' : LocalFileStorageProvider} {F : List TableTree} (h : Sound s F)
    (h' : Sound s' F) (hseq : s'.visibleSeq = s.visibleSeq) (txn : UInt64) (table : Bytes) :
    (∀ key, s'.get txn table key = s.get txn table key) ∧ s'.scan txn table = s.scan txn table := by
  have hfind := h.find_tree_congr h' table
  cases hroot : s.btrees.find table with
  | none =>
    rw [hroot] at hfind
    constructor
    · intro key
      simp only [LocalFileStorageProvider.get]
      rw [hfind, hroot]
    · simp only [LocalFileStorageProvider.scan, LocalFileStorageProvider.scanTree]
      rw [hfind, hroot]
  | some r =>
    obtain ⟨A, f, B, rfl, rfl, rfl⟩ := h.exists_tree hroot
    rw [hroot] at hfind
    have hrep := h.forest.rep
    have hrep' := h'.forest.rep
    constructor
    · intro key
      simp only [LocalFileStorageProvider.get]
      rw [hfind, hroot, hseq]
      dsimp only
      rw [hrep.get_eq, hrep'.get_eq]
    · simp only [LocalFileStorageProvider.scan, LocalFileStorageProvider.scanTree]
      rw [hfind, hroot, hseq]
      dsimp only
      rw [hrep.scan_eq, hrep'.scan_eq]

/-- A provider without tables answers every read with nothing. -/
theorem Sound.reads_nil {s : LocalFileStorageProvider} (h : Sound s []) (txn : UInt64)
    (table : Bytes) : (∀ key, s.get txn table key = .ok none) ∧ s.scan txn table = .ok [] := by
  have hfind : s.btrees.find table = none := h.find_eq_none_iff.2 List.not_mem_nil
  constructor
  · intro key
    rw [LocalFileStorageProvider.get]
    rw [hfind]
  · rw [LocalFileStorageProvider.scan, LocalFileStorageProvider.scanTree]
    rw [hfind]
    rfl

theorem Sound.isSome_find_table {s : LocalFileStorageProvider} {F : List TableTree} (h : Sound s F)
    (name : Bytes) : (s.tables.find name).isSome = true ↔ name ∈ F.map TableTree.name := by
  rw [AssocMap.isSome_find_iff, h.tables]

theorem Sound.tables_eq_nil_iff {s : LocalFileStorageProvider} {F : List TableTree} (h : Sound s F) :
    s.tables.entries = [] ↔ F = [] := by
  have hnames := congrArg List.length h.tables
  rw [List.length_map, List.length_map] at hnames
  rw [← List.length_eq_zero_iff, ← List.length_eq_zero_iff, hnames]

/-- A provider without tables has the contents of any other. -/
theorem sameContents_nil {s s' : LocalFileStorageProvider} (h : Sound s []) (h' : Sound s' []) :
    SameContents s s' := by
  have hnone : ∀ {u : LocalFileStorageProvider}, Sound u [] → ∀ name, u.tables.find name = none :=
    fun hu name => hu.find_table_eq_none_iff.2 List.not_mem_nil
  refine ⟨?_, ?_, ?_, ?_⟩
  · intro name
    rw [hnone h, hnone h']
  · intro txn table key
    rw [(h.reads_nil txn table).1, (h'.reads_nil txn table).1]
  · intro txn table
    rw [(h.reads_nil txn table).2, (h'.reads_nil txn table).2]
  · intro table
    simp only [LocalFileStorageProvider.autoId]
    rw [hnone h, hnone h']

/-- A restart of a provider whose roots are recorded brings back its contents. -/
theorem sameContents_restarted {s : LocalFileStorageProvider} {F : List TableTree} (h : Sound s F)
    (h' : Sound s.restarted F) : SameContents s s.restarted := by
  refine ⟨?_, ?_, ?_, ?_⟩
  · intro name
    rw [Bool.eq_iff_iff, h.isSome_find_table, h'.isSome_find_table]
  · intro txn table
    exact (h.reads_eq h' rfl txn table).1
  · intro txn table
    exact (h.reads_eq h' rfl txn table).2
  · intro table
    have hfind : s.restarted.tables.find table =
        (s.tables.find table).map (TableInfo.persisted table) := s.metadata.find_persisted table
    rw [LocalFileStorageProvider.autoId]
    rw [hfind, Option.map_map]
    rfl

/-! ## Histories -/

/-- A row operation that is refused changes nothing. -/
theorem Sound.refused {s s' : LocalFileStorageProvider} {F : List TableTree} (h : Sound s F) {op : Op}
    {r : DbError} (hop : op.stages = true) (hrun : op.exec.run s = .ok r s')
    (hr : r.isSentinel = false) : s' = s := by
  cases op with
  | put txn table key row =>
    obtain ⟨F', -, ⟨-, hnot⟩ | ⟨rfl, -⟩⟩ := h.put_ok hrun
    · have hfind := h.find_eq_none_iff.2 hnot
      change (LocalFileStorageProvider.put txn table key row).run s = _ at hrun
      rw [LocalFileStorageProvider.put] at hrun
      rw [EStateM.run_bind, EStateM.run_get] at hrun
      dsimp only at hrun
      rw [hfind] at hrun
      cases hrun
      rfl
    · cases hr
  | remove txn table key =>
    obtain ⟨F', -, ⟨-, hnot⟩ | ⟨rfl, -⟩⟩ := h.remove_ok hrun
    · have hfind := h.find_eq_none_iff.2 hnot
      change (LocalFileStorageProvider.remove txn table key).run s = _ at hrun
      rw [LocalFileStorageProvider.remove] at hrun
      rw [EStateM.run_bind, EStateM.run_get] at hrun
      dsimp only at hrun
      rw [hfind] at hrun
      cases hrun
      rfl
    · cases hr
  | createTable | dropTable | alterTable | prepare | commit | commitNext | abort => cases hop

theorem Op.writers_refused {op : Op} (hop : op.stages = true) {r : DbError}
    (hr : r.isSentinel = false) (W : List UInt64) : op.writers r W = W := by
  cases op with
  | put | remove =>
    rw [Op.writers]
    rw [hr]
    rfl
  | createTable | dropTable | alterTable | prepare | commit | commitNext | abort => cases hop

theorem Op.writers_ne_nil {op : Op} (hop : op.stages = true) {r : DbError}
    (hr : r.isSentinel = true) (W : List UInt64) : op.writers r W ≠ [] := by
  cases op with
  | put | remove =>
    rw [Op.writers]
    rw [hr]
    exact List.cons_ne_nil _ _
  | createTable | dropTable | alterTable | prepare | commit | commitNext | abort => cases hop

theorem Op.writers_other {op : Op} (hop : op.stages = false) (hcommits : op.commits = false)
    (r : DbError) (W : List UInt64) : op.writers r W = W := by
  cases op with
  | createTable | dropTable | alterTable | prepare | abort => rfl
  | put | remove => cases hop
  | commit | commitNext => cases hcommits

/-- Every provider of a history is laid out as trees, and the roots are recorded when no writes are
pending. -/
theorem History.sound {capacity : Nat} {hcap : capacity < 2 ^ 32} {W : List UInt64}
    {s : LocalFileStorageProvider} (h : History capacity hcap W s) :
    ∃ F, Sound s F ∧ (W = [] → Synced s F) := by
  induction h with
  | opened hopen => exact ⟨[], (sound_new hopen).1, fun _ => synced_nil _⟩
  | @exec op r W s s' hist hcall ih =>
    obtain ⟨F, hsound, hsync⟩ := ih
    obtain ⟨F', hstep⟩ := hsound.exec_ok hcall
    cases hstages : op.stages with
    | true =>
      cases hr : r.isSentinel with
      | true =>
        refine ⟨F', hstep.sound, fun hnil => ?_⟩
        exact absurd hnil (Op.writers_ne_nil hstages hr W)
      | false =>
        rw [hsound.refused hstages hcall hr, Op.writers_refused hstages hr]
        exact ⟨F, hsound, hsync⟩
    | false =>
      refine ⟨F', hstep.sound, fun hnil => hstep.synced hstages ?_⟩
      cases hcommits : op.commits with
      | true => exact Or.inl rfl
      | false =>
        rw [Op.writers_other hstages hcommits] at hnil
        exact Or.inr (hsync hnil)
  | @restart s s' hist hfits hrestart ih =>
    obtain ⟨F, hsound, hsync⟩ := ih
    by_cases hmagic : s.pager.header.magic = Pager.magic
    · obtain ⟨hsound', hsync', -⟩ := hsound.restart_kept (hsync rfl) hfits.2 hmagic hrestart
      exact ⟨F, hsound', fun _ => hsync'⟩
    · exact ⟨[], (hsound.running.restart_lost hmagic hrestart).1, fun _ => synced_nil _⟩

/-- Without the magic number a restart loses the tables. -/
theorem Sound.not_roundTrips {s : LocalFileStorageProvider} {F : List TableTree} (h : Sound s F)
    (hmagic : s.pager.header.magic ≠ Pager.magic) (hne : F ≠ []) : ¬ RoundTrips s := by
  rintro ⟨s', hrestart, hsame⟩
  have hsound' := (h.running.restart_lost hmagic hrestart).1
  obtain ⟨f, hf⟩ := List.exists_mem_of_ne_nil _ hne
  have hold := (h.isSome_find_table f.name).2 (List.mem_map_of_mem hf)
  rw [← hsame.tables, hsound'.isSome_find_table] at hold
  exact absurd hold List.not_mem_nil

/-- A clean shutdown after a history in which every writing transaction has committed: everything
comes back exactly when the provider that is closed holds the magic number, which it does when it has
made the file, or when there is no table and a page is left for new metadata. -/
theorem roundTrip_iff {capacity : Nat} {hcap : capacity < 2 ^ 32} {s : LocalFileStorageProvider}
    (hist : History capacity hcap [] s) (hfits : FitsPage s) :
    RoundTrips s ↔ s.pager.header.magic = Pager.magic ∨
      (s.tables.entries = [] ∧ s.pager.file.length < s.pager.capacity) := by
  obtain ⟨F, hsound, hsync⟩ := hist.sound
  by_cases hmagic : s.pager.header.magic = Pager.magic
  · refine iff_of_true ?_ (Or.inl hmagic)
    have hrestart : Restart s s.restarted :=
      (hsound.running.restart_iff_kept hfits.2 hmagic).2 ⟨hfits.1, rfl⟩
    obtain ⟨hsound', -, -⟩ := hsound.restart_kept (hsync rfl) hfits.2 hmagic hrestart
    exact ⟨_, hrestart, sameContents_restarted hsound hsound'⟩
  · constructor
    · intro htrips
      refine Or.inr ⟨?_, ?_⟩
      · rw [hsound.tables_eq_nil_iff]
        by_contra hne
        exact hsound.not_roundTrips hmagic hne htrips
      · obtain ⟨s', hrestart, -⟩ := htrips
        exact ((hsound.running.restart_iff_lost hmagic).1 hrestart).2.1
    · rintro (hkept | ⟨hnil, hroom⟩)
      · exact absurd hkept hmagic
      · have hrestart := (hsound.running.restart_iff_lost hmagic).2 ⟨hfits.1, hroom, rfl⟩
        have hsound' := (hsound.running.restart_lost hmagic hrestart).1
        rw [hsound.tables_eq_nil_iff.1 hnil] at hsound
        exact ⟨_, hrestart, sameContents_nil hsound hsound'⟩

/-- No operation touches the magic number. -/
theorem History.magic_exec {capacity : Nat} {hcap : capacity < 2 ^ 32} {W : List UInt64}
    {s s' : LocalFileStorageProvider} (h : History capacity hcap W s) {op : Op} {r : DbError}
    (hcall : op.exec.run s = .ok r s') : s'.pager.header.magic = s.pager.header.magic := by
  obtain ⟨F, hsound, -⟩ := h.sound
  obtain ⟨F', hstep⟩ := hsound.exec_ok hcall
  obtain ⟨touched, hframe⟩ := hstep.frame
  exact hframe.magic

/-- Every provider of a history has the disk of the first. -/
theorem History.capacity_eq {capacity : Nat} {hcap : capacity < 2 ^ 32} {W : List UInt64}
    {s : LocalFileStorageProvider} (h : History capacity hcap W s) : s.pager.capacity = capacity := by
  induction h with
  | opened hopen =>
    rw [(sound_new hopen).2]
    rfl
  | exec hist hcall ih =>
    obtain ⟨F, hsound, -⟩ := hist.sound
    obtain ⟨F', hstep⟩ := hsound.exec_ok hcall
    obtain ⟨touched, hframe⟩ := hstep.frame
    exact hframe.capacity.trans ih
  | @restart s s' hist hfits hrestart ih =>
    obtain ⟨F, hsound, -⟩ := hist.sound
    by_cases hmagic : s.pager.header.magic = Pager.magic
    · rw [((hsound.running.restart_iff_kept hfits.2 hmagic).1 hrestart).2]
      exact ih
    · rw [((hsound.running.restart_iff_lost hmagic).1 hrestart).2.2]
      exact ih

theorem magic_openFile_nil {capacity : Nat} {hcap : capacity < 2 ^ 32} {r : DbError}
    {s : LocalFileStorageProvider}
    (hopen : (openFile []).run (LocalFileStorageProvider.new capacity hcap) = .ok r s) :
    s.pager.header.magic = Pager.magic := by
  rw [(sound_new hopen).2]
  rfl

/-- The history that makes a file with one table. -/
theorem exists_history_first_table : ∃ s root, History 16 (by decide) [] s ∧
    s.tables.entries = [(ascii "t", ⟨emptySchema (ascii "t"), root, 0⟩)] ∧
    s.pager.header.magic = Pager.magic := by
  obtain ⟨s₀, s, root, hopen, hcreate, htables⟩ := exists_first_table
  have hcall : (Op.createTable (emptySchema (ascii "t"))).exec.run s₀ = .ok .sentinel s := hcreate
  have hist := History.opened hopen
  exact ⟨s, root, hist.exec hcall, htables, (hist.magic_exec hcall).trans (magic_openFile_nil hopen)⟩

/-- The history of a file with a committed row and two tables. -/
theorem TwoTables.history {s₀ s₁ s₂ s₃ s : LocalFileStorageProvider} {root root' : PageId}
    (h : TwoTables s₀ s₁ s₂ s₃ s root root') :
    History 16 (by decide) [] s₃ ∧ History 16 (by decide) [] s ∧ s₃.pager.header.magic = Pager.magic ∧
      s.pager.header.magic = Pager.magic ∧ FitsPage s := by
  have hcreated : (Op.createTable (emptySchema (ascii "t"))).exec.run s₀ = .ok .sentinel s₁ := h.created
  have hstored : (Op.put 1 (ascii "t") (.int64 7) Tuple.empty).exec.run s₁ = .ok .sentinel s₂ :=
    h.stored
  have hcommitted : (Op.commit 1 1).exec.run s₂ = .ok .sentinel s₃ := h.committed
  have hjoined : (Op.createTable (emptySchema (ascii "u"))).exec.run s₃ = .ok .sentinel s := h.joined
  have hist₀ := History.opened h.opened
  have hist₁ := hist₀.exec hcreated
  have hist₂ := hist₁.exec hstored
  have hist₃ := hist₂.exec hcommitted
  have hmagic₃ : s₃.pager.header.magic = Pager.magic :=
    (hist₂.magic_exec hcommitted).trans <| (hist₁.magic_exec hstored).trans <|
      (hist₀.magic_exec hcreated).trans (magic_openFile_nil h.opened)
  exact ⟨hist₃, hist₃.exec hjoined, hmagic₃, (hist₃.magic_exec hjoined).trans hmagic₃,
    @fits_bare_tables _ [(ascii "t", root), (ascii "u", root')] h.tables (show 44 ≤ 4068 by decide)⟩

/-- The process that has made the tables is closed. -/
theorem roundTrip_two_tables : ∃ s, History 16 (by decide) [] s ∧ FitsPage s ∧
    s.tables.entries.map Prod.fst = [ascii "t", ascii "u"] ∧
    s.scan 2 (ascii "t") = .ok [Tuple.empty] ∧ RoundTrips s := by
  obtain ⟨s₀, s₁, s₂, s₃, s, root, root', h⟩ := exists_twoTables
  obtain ⟨-, hist, -, hmagic, hfits⟩ := h.history
  refine ⟨s, hist, hfits, ?_, h.scan, (roundTrip_iff hist hfits).2 (Or.inl hmagic)⟩
  rw [h.tables]
  rfl

/-- The next process opens the file with the table and is closed: the table is gone. -/
theorem second_restart_loses_table : ∃ s, History 16 (by decide) [] s ∧ FitsPage s ∧
    s.tables.entries.map Prod.fst = [ascii "t"] ∧ ¬ RoundTrips s := by
  obtain ⟨s, root, hist, htables, hmagic⟩ := exists_history_first_table
  have hfits : FitsPage s := fits_first_table htables
  obtain ⟨F, hsound, hsync⟩ := hist.sound
  have hrestart : Restart s s.restarted :=
    (hsound.running.restart_iff_kept hfits.2 hmagic).2 ⟨hfits.1, rfl⟩
  obtain ⟨hsound', -, -⟩ := hsound.restart_kept (hsync rfl) hfits.2 hmagic hrestart
  have htables' : s.restarted.tables.entries =
      [(ascii "t", ⟨emptySchema (ascii "t"), root, 0⟩)] := by
    show s.tables.entries.map _ = _
    rw [htables]
    rfl
  refine ⟨s.restarted, hist.restart hfits hrestart, fits_first_table htables', ?_, ?_⟩
  · rw [htables']
    rfl
  · refine hsound'.not_roundTrips (show (0 : UInt32) ≠ Pager.magic by decide) ?_
    rw [ne_eq, ← hsound'.tables_eq_nil_iff, htables']
    exact List.cons_ne_nil _ _

end OpenDB
