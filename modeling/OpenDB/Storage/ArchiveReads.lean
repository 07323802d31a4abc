import OpenDB.Storage.ArchiveModel

/-!
# Reads after writes and commits

What a staged write and a commit change for readers, in every run on a file. A write changes one read
at most, that of its own transaction under its key, and only if nothing was visible there
(`write_changes_own_read`). A commit under a new number shows everyone the versions that its
transaction has staged and changes no other read (`commit_shows_staged`); of several writes to one key
that is the first (`first_write_wins`).
-/

set_option autoImplicit false

namespace OpenDB

open OpenDB.Library

open LocalFileStorageProvider

/-! ## Tidy tables -/

section

variable {calls : TableTree → List LeafEntry} {F F' : List TableTree}
  {s s' : LocalFileStorageProvider} {table : Bytes}

theorem Grown.exists_after (h : Grown calls F F') {f : TableTree} (hf : f ∈ F) :
    ∃ f' ∈ F', f'.name = f.name ∧ PutSteps (calls f) f.layout f'.layout := by
  induction h with
  | nil => exact absurd hf List.not_mem_nil
  | @cons g g' F F' hgg' _ ih =>
    rcases List.mem_cons.1 hf with rfl | hf
    · exact ⟨g', List.mem_cons_self, hgg'⟩
    · obtain ⟨f', hf', hstep⟩ := ih hf
      exact ⟨f', List.mem_cons_of_mem _ hf', hstep⟩

theorem Sound.tidyTable_iff (h : Sound s F) {f : TableTree} (hf : f ∈ F) :
    s.TidyTable f.name ↔ f.layout.Tidy := by
  obtain ⟨A, B, rfl⟩ := List.append_of_mem hf
  have hfind := h.find_tree
  have hchain := h.forest.rep.leafChain_eq
  constructor
  · intro htidy
    exact htidy _ _ hfind hchain
  · intro htidy root leaves hroot hleaves
    rw [hfind] at hroot
    cases hroot
    rw [hchain] at hleaves
    cases hleaves
    exact htidy

/-- Calls on the trees make no table tidy. -/
theorem Grown.tidyTable_before (hgrown : Grown calls F F') (h : Sound s F) (h' : Sound s' F')
    (htidy : s'.TidyTable table) : s.TidyTable table := by
  by_cases hmem : table ∈ F.map TableTree.name
  · obtain ⟨f, hf, rfl⟩ := List.mem_map.1 hmem
    obtain ⟨f', hf', hname, hsteps⟩ := hgrown.exists_after hf
    rw [← hname, h'.tidyTable_iff hf'] at htidy
    exact (h.tidyTable_iff hf).2 (hsteps.tidy_before htidy)
  · intro root leaves hroot
    rw [h.find_eq_none_iff.2 hmem] at hroot
    cases hroot

end

/-! ## The archive after an operation -/

namespace ArchiveModel

/-- A version that an operation stages. -/
structure Write where
  txn : UInt64
  table : Bytes
  key : Value
  outcome : Option Tuple

/-- The version that an operation stages, if its table exists. -/
def written (M : ArchiveModel) : Op → Option Write
  | .put txn table key row => (M.tables table).map fun T =>
    if key.isNull then
      let id := Value.int64 (T.autoId + 1).toInt64
      ⟨txn, table, id, some (row.set (ascii "_id") id)⟩
    else ⟨txn, table, key, some row⟩
  | .remove txn table key => (M.tables table).map fun _ => ⟨txn, table, key, none⟩
  | _ => none

variable {M : ArchiveModel} {op : Op} {w : Write} {table : Bytes}

theorem archive_of_some {T : ArchivedTable} (h : M.tables table = some T) :
    M.archive table = T.archive := by
  rw [archive, h]
  rfl

theorem archive_of_none (h : M.tables table = none) : M.archive table = .empty := by
  rw [archive, h]
  rfl

theorem archive_setTable_of_ne {name : Bytes} {T : Option ArchivedTable} (hne : table ≠ name) :
    (M.setTable name T).archive table = M.archive table := by
  show ((Function.update M.tables name T table).map _).getD _ = _
  rw [Function.update_of_ne hne]
  rfl

theorem archive_setTable_self {T : ArchivedTable} :
    (M.setTable table (some T)).archive table = T.archive :=
  archive_of_some (Function.update_self _ _ _)

/-- A write stages its version in its table. -/
theorem archive_written (hw : M.written op = some w) (table : Bytes) :
    (M.exec op).archive table = if table = w.table then
      (M.archive table).stage w.txn.toNat w.key.rank w.outcome else M.archive table := by
  cases op with
  | put txn name key row =>
    obtain ⟨T, hT, rfl⟩ := Option.map_eq_some_iff.1 hw
    rw [exec, hT, Option.map_some]
    have hname : ∀ {a b : Write}, a.table = name → b.table = name →
        (if key.isNull then a else b).table = name := by
      intro a b ha hb
      split_ifs
      · exact ha
      · exact hb
    rw [hname rfl rfl]
    split_ifs with htable hnull
    · rw [htable, archive_setTable_self, archive_of_some hT, ArchivedTable.put, if_pos hnull]
    · rw [htable, archive_setTable_self, archive_of_some hT, ArchivedTable.put, if_neg hnull]
    · exact archive_setTable_of_ne htable
  | remove txn name key =>
    obtain ⟨T, hT, rfl⟩ := Option.map_eq_some_iff.1 hw
    rw [exec, hT, Option.map_some]
    split_ifs with htable
    · rw [htable, archive_setTable_self, archive_of_some hT]
      rfl
    · exact archive_setTable_of_ne htable
  | _ => cases hw

theorem visibleSeq_written (hw : M.written op = some w) : (M.exec op).visibleSeq = M.visibleSeq := by
  cases op with
  | put | remove => rfl
  | _ => cases hw

theorem publish_empty (t n : ℕ) : (VersionArchive.empty : RowArchive).publish t n = .empty := by
  ext l m u : 4
  show (if m = n ∧ u = t then _ else _) = _
  split_ifs
  · rfl
  · rfl

theorem archive_commit (M : ArchiveModel) (txn seq : UInt64) (table : Bytes) :
    (M.commit txn seq).archive table = (M.archive table).publish txn.toNat seq.toNat := by
  have htables : (M.commit txn seq).tables table = (M.tables table).map (ArchivedTable.commit txn seq) :=
    rfl
  cases hT : M.tables table with
  | none =>
    rw [hT] at htables
    rw [archive_of_none htables, archive_of_none hT, publish_empty]
  | some T =>
    rw [hT] at htables
    rw [archive_of_some htables, archive_of_some hT]
    rfl

/-! ## Numbers -/

/-- Nothing is filed above the visible sequence number. -/
def Bounded (M : ArchiveModel) : Prop :=
  ∀ table, (M.archive table).Bounded M.visibleSeq.toNat

theorem Bounded.setTable (h : M.Bounded) {name : Bytes} {T : Option ArchivedTable}
    (hT : ∀ T', T = some T' → T'.archive.Bounded M.visibleSeq.toNat) : (M.setTable name T).Bounded := by
  intro table
  by_cases htable : table = name
  · subst htable
    cases T with
    | none =>
      rw [archive_of_none (Function.update_self _ _ _)]
      exact VersionArchive.bounded_empty _
    | some T =>
      rw [archive_setTable_self]
      exact hT T rfl
  · rw [archive_setTable_of_ne htable]
    exact h table

theorem Bounded.of_table (h : M.Bounded) {T : ArchivedTable} (hT : M.tables table = some T) :
    T.archive.Bounded M.visibleSeq.toNat := by
  rw [← archive_of_some hT]
  exact h table

theorem Bounded.commit (h : M.Bounded) (txn seq : UInt64) : (M.commit txn seq).Bounded := by
  have hseq : seq.toNat ≤ (M.commit txn seq).visibleSeq.toNat ∧
      M.visibleSeq.toNat ≤ (M.commit txn seq).visibleSeq.toNat := by
    show _ ≤ (if M.visibleSeq < seq then seq else M.visibleSeq).toNat ∧ _
    rw [ArchiveModel.commit]
    split_ifs with hlt
    · exact ⟨Nat.le_refl _, (UInt64.lt_iff_toNat_lt.1 hlt).le⟩
    · rw [UInt64.lt_iff_toNat_lt] at hlt
      exact ⟨by omega, Nat.le_refl _⟩
  intro table
  rw [archive_commit]
  exact ((h table).mono hseq.2).publish _ hseq.1

theorem Bounded.exec (h : M.Bounded) (op : Op) : (M.exec op).Bounded := by
  cases op with
  | createTable schema =>
    rw [ArchiveModel.exec]
    split_ifs
    · apply h.setTable
      rintro T' ⟨⟩
      exact VersionArchive.bounded_empty _
    · exact h
  | dropTable name => exact h.setTable fun _ hnone => by cases hnone
  | alterTable name spec =>
    cases spec with
    | addColumn | dropColumn => exact h
    | renameTable newName =>
      rw [ArchiveModel.exec]
      split_ifs
      · have hdropped : (M.setTable name none).Bounded := h.setTable fun _ hnone => by cases hnone
        exact hdropped.setTable fun T' hT' => h.of_table hT'
      · exact h
  | put txn table key row =>
    apply h.setTable
    intro T' hT'
    obtain ⟨T, hT, rfl⟩ := Option.map_eq_some_iff.1 hT'
    rw [ArchivedTable.put]
    split_ifs
    · exact (h.of_table hT).stage _ _ _
    · exact (h.of_table hT).stage _ _ _
  | remove txn table key =>
    apply h.setTable
    intro T' hT'
    obtain ⟨T, hT, rfl⟩ := Option.map_eq_some_iff.1 hT'
    exact (h.of_table hT).stage _ _ _
  | prepare | abort => exact h
  | commit txn seq => exact h.commit txn seq
  | commitNext txn =>
    exact Bounded.commit (M := { M with internalSeq := M.internalSeq + 1 }) h txn (M.internalSeq + 1)

theorem bounded_empty : empty.Bounded := fun _ => VersionArchive.bounded_empty _

theorem bounded_after (events : List Event) : (after events).Bounded := by
  induction events using List.reverseRecOn with
  | nil => exact bounded_empty
  | append_singleton events event ih =>
    rw [after_concat]
    cases event with
    | op op => exact ih.exec op
    | restart =>
      rw [step, restart]
      split_ifs
      · exact ih
      · exact bounded_empty

/-! ## What stays -/

end ArchiveModel

/-- The operation does not take the table away. -/
def Op.keeps (table : Bytes) : Op → Bool
  | .dropTable name => decide (name ≠ table)
  | .alterTable name (.renameTable _) => decide (name ≠ table)
  | _ => true

namespace ArchiveModel

variable {M : ArchiveModel} {table : Bytes}

theorem entry_publish_of_some {A : RowArchive} {k : KeyRank} {n m t u : ℕ} {old : Option Tuple}
    (h : A.entry k m u = some old) : (A.publish t n).entry k m u = some old := by
  by_cases hplace : m = n ∧ u = t
  · obtain ⟨rfl, rfl⟩ := hplace
    rw [VersionArchive.entry_publish_self, h, Option.some_or]
  · rw [VersionArchive.entry_publish_of_ne hplace, h]

theorem isSome_of_entry {k : KeyRank} {n t : ℕ} {old : Option Tuple}
    (h : (M.archive table).entry k n t = some old) : ∃ T, M.tables table = some T := by
  cases hT : M.tables table with
  | none =>
    rw [archive_of_none hT] at h
    cases h
  | some T => exact ⟨T, rfl⟩

/-- An archive only grows, as long as its table stays. -/
theorem entry_exec_of_some {op : Op} (hkeeps : op.keeps table = true) {k : KeyRank} {n t : ℕ}
    {old : Option Tuple} (h : (M.archive table).entry k n t = some old) :
    ((M.exec op).archive table).entry k n t = some old := by
  obtain ⟨T, hT⟩ := isSome_of_entry h
  cases op with
  | createTable schema =>
    rw [exec]
    split_ifs with hadmits
    · rw [archive_setTable_of_ne, h]
      rintro rfl
      rw [admitsTable, hT] at hadmits
      cases hadmits
    · exact h
  | dropTable name =>
    rw [exec, archive_setTable_of_ne (of_decide_eq_true hkeeps).symm, h]
  | alterTable name spec =>
    cases spec with
    | addColumn | dropColumn => exact h
    | renameTable newName =>
      rw [exec]
      split_ifs with hadmits
      · rw [archive_setTable_of_ne, archive_setTable_of_ne (of_decide_eq_true hkeeps).symm, h]
        rintro rfl
        rw [admitsRename, hT, Option.isNone_some, Bool.and_false] at hadmits
        cases hadmits
      · exact h
  | put txn name key row =>
    by_cases htable : table = name
    · subst htable
      rw [archive_of_some hT] at h
      rw [exec, hT, Option.map_some, archive_setTable_self, ArchivedTable.put]
      split_ifs
      · exact VersionArchive.entry_file_of_some h
      · exact VersionArchive.entry_file_of_some h
    · rw [exec, archive_setTable_of_ne htable, h]
  | remove txn name key =>
    by_cases htable : table = name
    · subst htable
      rw [archive_of_some hT] at h
      rw [exec, hT, Option.map_some, archive_setTable_self]
      exact VersionArchive.entry_file_of_some h
    · rw [exec, archive_setTable_of_ne htable, h]
  | prepare | abort => exact h
  | commit txn seq =>
    rw [exec, archive_commit]
    exact entry_publish_of_some h
  | commitNext txn =>
    rw [exec, archive_commit]
    exact entry_publish_of_some h

theorem entry_after_of_some {events : List Event} {ops : List Op}
    (hkeeps : ∀ op ∈ ops, op.keeps table = true) {k : KeyRank} {n t : ℕ} {old : Option Tuple}
    (h : ((after events).archive table).entry k n t = some old) :
    ((after (events ++ ops.map Event.op)).archive table).entry k n t = some old := by
  induction ops using List.reverseRecOn with
  | nil => rwa [List.map_nil, List.append_nil]
  | append_singleton ops op ih =>
    rw [List.map_append, List.map_singleton, ← List.append_assoc, after_concat]
    apply entry_exec_of_some (hkeeps op (by simp))
    exact ih fun op' hop' => hkeeps op' (List.mem_append_left _ hop')

/-- Nothing is visible to the transaction under the key. -/
def Unseen (M : ArchiveModel) (txn : UInt64) (table : Bytes) (key : Value) : Prop :=
  (M.archive table).ShowsNothing M.visibleSeq.toNat txn.toNat key.rank

end ArchiveModel

/-! ## Readers -/

section

variable {capacity : Nat} {hcap : capacity < 2 ^ 32} {events : List Event}
  {s s' : LocalFileStorageProvider} {r : DbError} {table : Bytes} {key : Value}

theorem Runs.get_eq_iff (h : Runs capacity hcap events s) (htidy : s.TidyTable table)
    (hkey : key.isNaN = false) {txn : UInt64} {value : Option Tuple} :
    s.get txn table key = .ok value ↔ (ArchiveModel.after events).Reads txn table key value := by
  obtain ⟨⟨F, hmirrors⟩, -⟩ := h.mirrors
  exact hmirrors.get_eq_iff htidy hkey

theorem Runs.get_congr {events' : List Event} (h : Runs capacity hcap events s)
    (h' : Runs capacity hcap events' s') (htidy : s.TidyTable table) (htidy' : s'.TidyTable table)
    (hkey : key.isNaN = false) {txn : UInt64}
    (hsame : ∀ value, (ArchiveModel.after events).Reads txn table key value →
      (ArchiveModel.after events').Reads txn table key value) :
    s'.get txn table key = s.get txn table key := by
  obtain ⟨⟨F, hmirrors⟩, -⟩ := h.mirrors
  obtain ⟨value, hget, hreads⟩ := hmirrors.get htidy txn hkey
  rw [hget, h'.get_eq_iff htidy' hkey]
  exact hsame value hreads

/-- A write makes no table tidy. -/
theorem Runs.tidyTable_before_write (h : Runs capacity hcap events s) {op : Op}
    {w : ArchiveModel.Write} (hw : (ArchiveModel.after events).written op = some w)
    (hrun : op.exec.run s = .ok r s') (htidy : s'.TidyTable table) : s.TidyTable table := by
  obtain ⟨⟨F, hmirrors⟩, -⟩ := h.mirrors
  cases op with
  | put txn name key row =>
    obtain ⟨F', hstep, -⟩ := hmirrors.sound.put_ok hrun
    exact hstep.grown.tidyTable_before hmirrors.sound hstep.sound htidy
  | remove txn name key =>
    obtain ⟨F', hstep, -⟩ := hmirrors.sound.remove_ok hrun
    exact hstep.grown.tidyTable_before hmirrors.sound hstep.sound htidy
  | _ => cases hw

/-- A staged write is what its transaction reads there if nothing was visible to it, and changes
nothing that anyone reads otherwise: a transaction does not read its own write over a committed row,
nor a second write of its own. -/
theorem write_changes_own_read (h : Runs capacity hcap events s) {op : Op} {w : ArchiveModel.Write}
    (hw : (ArchiveModel.after events).written op = some w) (hrun : op.exec.run s = .ok r s')
    (htidy : s'.TidyTable table) (hkey : key.isNaN = false) (u : UInt64) :
    (u = w.txn ∧ table = w.table ∧ key.rank = w.key.rank ∧
      (ArchiveModel.after events).Unseen u table key → s'.get u table key = .ok w.outcome) ∧
    (¬ (u = w.txn ∧ table = w.table ∧ key.rank = w.key.rank ∧
      (ArchiveModel.after events).Unseen u table key) → s'.get u table key = s.get u table key) := by
  have h' := h.exec hrun
  have harchive : (ArchiveModel.after (events ++ [.op op])).archive table = if table = w.table then
      ((ArchiveModel.after events).archive table).stage w.txn.toNat w.key.rank w.outcome
      else (ArchiveModel.after events).archive table := by
    rw [ArchiveModel.after_concat]
    exact ArchiveModel.archive_written hw table
  have hseq : (ArchiveModel.after (events ++ [.op op])).visibleSeq =
      (ArchiveModel.after events).visibleSeq := by
    rw [ArchiveModel.after_concat]
    exact ArchiveModel.visibleSeq_written hw
  constructor
  · rintro ⟨rfl, rfl, hrank, hunseen⟩
    rw [h'.get_eq_iff htidy hkey, ArchiveModel.Reads, harchive, if_pos rfl, hseq, ← hrank]
    exact VersionArchive.reads_stage_self hunseen
  · intro hother
    apply h.get_congr h' (h.tidyTable_before_write hw hrun htidy) htidy hkey
    intro value hreads
    rw [ArchiveModel.Reads, harchive, hseq]
    split_ifs with htable
    · by_cases hown : u.toNat = w.txn.toNat ∧ key.rank = w.key.rank
      · -- something is visible to the writer, so the write is not what it reads
        rw [← hown.1, ← hown.2, VersionArchive.reads_stage_shown]
        · exact hreads
        · intro hunseen
          exact hother ⟨UInt64.toNat_inj.1 hown.1, htable, hown.2, hunseen⟩
      · rw [VersionArchive.reads_stage_other]
        · exact hreads
        · by_contra hboth
          rw [not_or, not_not, not_not] at hboth
          exact hown hboth
    · exact hreads

end

/-- The first row of a new table is read by the transaction that has staged it, and by no other. -/
theorem first_row_own_read : ∃ s s',
    Runs 16 (by decide) [.op (.createTable (emptySchema (ascii "t")))] s ∧
    (put 1 (ascii "t") (.int64 7) Tuple.empty).run s = .ok .sentinel s' ∧
    s'.get 1 (ascii "t") (.int64 7) = .ok (some Tuple.empty) ∧
    s'.get 2 (ascii "t") (.int64 7) = s.get 2 (ascii "t") (.int64 7) := by
  obtain ⟨s, s', s₃, root, xs, ys, zs, hruns, -, -, hput, -, -, hfirst, -⟩ := exists_first_row
  have hw : (ArchiveModel.after [.op (.createTable (emptySchema (ascii "t")))]).written
      (.put 1 (ascii "t") (.int64 7) Tuple.empty) =
        some ⟨1, ascii "t", .int64 7, some Tuple.empty⟩ := rfl
  refine ⟨s, s', hruns, hput, ?_, ?_⟩
  · exact (write_changes_own_read hruns hw hput hfirst.tidyTable rfl 1).1
      ⟨rfl, rfl, rfl, fun _ _ _ => rfl⟩
  · exact (write_changes_own_read hruns hw hput hfirst.tidyTable rfl 2).2
      fun h => absurd h.1 (by decide)

section

variable {capacity : Nat} {hcap : capacity < 2 ^ 32} {events : List Event}
  {s s' : LocalFileStorageProvider} {r : DbError} {table : Bytes} {key : Value}

/-- A commit makes no table tidy. -/
theorem Runs.tidyTable_before_commit (h : Runs capacity hcap events s) {txn seq : UInt64}
    (hrun : (commit txn seq).run s = .ok r s') (htidy : s'.TidyTable table) : s.TidyTable table := by
  obtain ⟨⟨F, hmirrors⟩, -⟩ := h.mirrors
  obtain ⟨s₁, F', -, hgrown, hmirrors'⟩ := hmirrors.commit_syncs hrun
  exact hgrown.tidyTable_before hmirrors.sound hmirrors'.sound htidy

/-- The version that the transaction has staged under the key. -/
def ArchiveModel.staged (M : ArchiveModel) (txn : UInt64) (table : Bytes) (key : Value) :
    Option (Option Tuple) :=
  (M.archive table).entry key.rank 0 txn.toNat

/-- What the model reads after a commit under a number above the visible one. -/
theorem ArchiveModel.reads_commit {M : ArchiveModel} (hbounded : M.Bounded) {txn seq u : UInt64}
    (hnew : M.visibleSeq < seq) {value : Option Tuple} :
    (M.commit txn seq).Reads u table key value ↔
      match M.staged txn table key with
      | some outcome => value = outcome
      | none => M.Reads u table key value := by
  have hlt := UInt64.lt_iff_toNat_lt.1 hnew
  have hseq : (M.commit txn seq).visibleSeq = seq := if_pos hnew
  rw [Reads, archive_commit, hseq]
  cases hstaged : M.staged txn table key with
  | some outcome =>
    dsimp only
    have hreads : ((M.archive table).publish txn.toNat seq.toNat).Reads seq.toNat u.toNat key.rank
        outcome := by
      apply VersionArchive.reads_publish_staged (by omega) (Nat.le_refl _) _ hstaged
      intro m x hne _
      exact lt_of_le_of_lt (hbounded table _ m x hne) hlt
    constructor
    · exact fun hvalue => hvalue.unique hreads
    · rintro rfl
      exact hreads
  | none =>
    dsimp only
    rw [VersionArchive.reads_publish_unstaged hstaged, (hbounded table).reads_mono hlt.le]
    rfl

theorem Runs.get_commit (h : Runs capacity hcap events s) {txn seq : UInt64}
    (hnew : s.visibleSeq < seq) (hrun : (commit txn seq).run s = .ok r s')
    (htidy : s'.TidyTable table) (hkey : key.isNaN = false) (u : UInt64) :
    s'.get u table key =
      match (ArchiveModel.after events).staged txn table key with
      | some outcome => .ok outcome
      | none => s.get u table key := by
  have h' := h.call (.commit txn seq) hrun
  obtain ⟨⟨F, hmirrors⟩, -⟩ := h.mirrors
  have hlt : (ArchiveModel.after events).visibleSeq < seq := by
    rw [hmirrors.visibleSeq]
    exact hnew
  have hreads : ∀ {value}, ((ArchiveModel.after events).commit txn seq).Reads u table key value ↔ _ :=
    ArchiveModel.reads_commit (ArchiveModel.bounded_after events) hlt
  have hafter : ArchiveModel.after (events ++ [.op (.commit txn seq)]) =
      (ArchiveModel.after events).commit txn seq := ArchiveModel.after_concat _ _
  cases hstaged : (ArchiveModel.after events).staged txn table key with
  | some outcome =>
    rw [hstaged] at hreads
    dsimp only at hreads ⊢
    rw [h'.get_eq_iff htidy hkey, hafter, hreads]
  | none =>
    rw [hstaged] at hreads
    dsimp only at hreads ⊢
    apply h.get_congr h' (h.tidyTable_before_commit hrun htidy) htidy hkey
    intro value hvalue
    rw [hafter, hreads]
    exact hvalue

/-- A commit under a number above the visible one: everyone reads the versions that the transaction has
staged, in all tables at once, and everything else is read as before. Scans list what is read. -/
theorem commit_shows_staged (h : Runs capacity hcap events s) {txn seq : UInt64}
    (hnew : s.visibleSeq < seq) (hrun : (commit txn seq).run s = .ok r s')
    (htidy : s'.TidyTable table) (u : UInt64) :
    (∀ key, key.isNaN = false → s'.get u table key =
      match (ArchiveModel.after events).staged txn table key with
      | some outcome => .ok outcome
      | none => s.get u table key) ∧
    ∃ rows, s'.scan u table = .ok (rows.map Prod.snd) ∧
      ∀ key, key.isNaN = false → ∃ value, s'.get u table key = .ok value ∧
        rowsAt key rows = value.toList := by
  refine ⟨fun key hkey => h.get_commit hnew hrun htidy hkey u, ?_⟩
  obtain ⟨⟨F, hmirrors⟩, -⟩ := (h.call (.commit txn seq) hrun).mirrors
  obtain ⟨rows, hscan, hlists⟩ := hmirrors.scan htidy u
  refine ⟨rows, hscan, fun key hkey => ?_⟩
  obtain ⟨value, hget, hreads⟩ := hmirrors.get htidy u hkey
  exact ⟨value, hget, hlists.reads key hkey value hreads⟩

end

/-- The commit of the first row shows it to everyone. -/
theorem commit_shows_first_row : ∃ s s' rows, Runs 16 (by decide) putOneRow s ∧
    (commit 1 1).run s = .ok .sentinel s' ∧
    s'.get 2 (ascii "t") (.int64 7) = .ok (some Tuple.empty) ∧
    s'.scan 2 (ascii "t") = .ok (rows.map Prod.snd) ∧ rowsAt (.int64 7) rows = [Tuple.empty] := by
  obtain ⟨s₁, s, s', root, xs, ys, zs, -, hruns, -, -, hcommit, -, -, hfirst⟩ := exists_first_row
  have hvisible : s.visibleSeq < 1 := by
    obtain ⟨⟨F, hmirrors⟩, -⟩ := hruns.mirrors
    rw [← hmirrors.visibleSeq]
    decide
  obtain ⟨hgets, rows, hscan, hrows⟩ := commit_shows_staged hruns hvisible hcommit hfirst.tidyTable 2
  have hget : s'.get 2 (ascii "t") (.int64 7) = .ok (some Tuple.empty) := hgets _ rfl
  obtain ⟨value, hvalue, hat⟩ := hrows (.int64 7) rfl
  rw [hget] at hvalue
  cases hvalue
  exact ⟨s, s', rows, hruns, hcommit, hget, hscan, hat⟩

/-- The first write of a transaction to a key is the one that its commit shows, whatever the
transaction and others write there in the meantime. -/
theorem first_write_wins {capacity : Nat} {hcap : capacity < 2 ^ 32} {events : List Event}
    {s s' : LocalFileStorageProvider} {r : DbError} {op : Op} {w : ArchiveModel.Write} {more : List Op}
    (h : Runs capacity hcap (events ++ (op :: more).map Event.op) s)
    (hw : (ArchiveModel.after events).written op = some w)
    (hfirst : (ArchiveModel.after events).staged w.txn w.table w.key = none)
    (hkeeps : ∀ op' ∈ more, op'.keeps w.table = true) {seq : UInt64} (hnew : s.visibleSeq < seq)
    (hrun : (commit w.txn seq).run s = .ok r s') (htidy : s'.TidyTable w.table)
    (hkey : w.key.isNaN = false) (u : UInt64) : s'.get u w.table w.key = .ok w.outcome := by
  have hstaged : (ArchiveModel.after (events ++ [.op op])).staged w.txn w.table w.key =
      some w.outcome := by
    rw [ArchiveModel.staged, ArchiveModel.after_concat, show (ArchiveModel.after events).step (.op op) =
      (ArchiveModel.after events).exec op from rfl, ArchiveModel.archive_written hw, if_pos rfl]
    exact VersionArchive.entry_file_self hfirst
  have hstays := ArchiveModel.entry_after_of_some hkeeps hstaged
  rw [List.append_assoc, List.singleton_append, ← List.map_cons] at hstays
  rw [h.get_commit hnew hrun htidy hkey u, ArchiveModel.staged, hstays]

/-- A second write to the first row is lost. -/
theorem first_write_of_first_row : ∃ s s' row, row ≠ Tuple.empty ∧
    Runs 16 (by decide) (putOneRow ++ [.op (.put 1 (ascii "t") (.int64 7) row)]) s ∧
    (commit 1 1).run s = .ok .sentinel s' ∧
    s'.get 2 (ascii "t") (.int64 7) = .ok (some Tuple.empty) := by
  obtain ⟨s₁, s₂, s₃, root, xs, ys, zs, -, hruns₂, -, -, -, -, hfirst₂, -⟩ := exists_first_row
  obtain ⟨row, hrow⟩ : ∃ row, row = Tuple.empty.set (ascii "a") .null := ⟨_, rfl⟩
  obtain ⟨s, ys', hput, hfirst⟩ := hfirst₂.put (by decide) 1 row
    (by rw [hrow]; decide)
  have hruns := hruns₂.call (.put 1 (ascii "t") (.int64 7) row) hput
  obtain ⟨s', zs', hcommit, hfirst'⟩ := hfirst.commit (by decide) 1 1
  have hvisible : s.visibleSeq = 0 := by
    obtain ⟨⟨F, hmirrors⟩, -⟩ := hruns.mirrors
    rw [← hmirrors.visibleSeq]
    rfl
  have hw : (ArchiveModel.after [.op (.createTable (emptySchema (ascii "t")))]).written
      (.put 1 (ascii "t") (.int64 7) Tuple.empty) =
        some ⟨1, ascii "t", .int64 7, some Tuple.empty⟩ := rfl
  refine ⟨s, s', row, by rw [hrow]; decide, hruns, hcommit, ?_⟩
  have hkeeps : ∀ op ∈ [Op.put 1 (ascii "t") (.int64 7) row], op.keeps (ascii "t") = true := by
    intro op hop
    rw [List.mem_singleton.1 hop]
    rfl
  exact first_write_wins hruns hw rfl hkeeps
    (by rw [hvisible]; decide) hcommit hfirst'.tidyTable rfl 2

/-- A commit whose number is below that of a committed version of the key shows nobody what its
transaction has staged there. A provider that is opened again keeps the old numbers, and a process that
counts its commits from the beginning commits below them. -/
theorem stale_commit_unseen {capacity : Nat} {hcap : capacity < 2 ^ 32} {events : List Event}
    {s s' : LocalFileStorageProvider} {r : DbError} {table : Bytes} {key : Value}
    (h : Runs capacity hcap events s) {txn seq : UInt64} (hrun : (commit txn seq).run s = .ok r s')
    (hlater : ∃ n t, seq.toNat < n ∧
      ((ArchiveModel.after events).archive table).entry key.rank n t ≠ none)
    (htidy : s'.TidyTable table) (hkey : key.isNaN = false) (u : UInt64) :
    s'.get u table key = s.get u table key := by
  obtain ⟨n, t, hlt, hne⟩ := hlater
  have hn := ArchiveModel.bounded_after events table _ n t hne
  have hafter : ArchiveModel.after (events ++ [.op (.commit txn seq)]) =
      (ArchiveModel.after events).commit txn seq := ArchiveModel.after_concat _ _
  -- the visible sequence number stays where it was
  have hseq : ((ArchiveModel.after events).commit txn seq).visibleSeq =
      (ArchiveModel.after events).visibleSeq := by
    apply if_neg
    rw [UInt64.lt_iff_toNat_lt]
    omega
  apply h.get_congr (h.call (.commit txn seq) hrun) (h.tidyTable_before_commit hrun htidy) htidy
    hkey
  intro value hreads
  rw [hafter, ArchiveModel.Reads, ArchiveModel.archive_commit, hseq,
    VersionArchive.reads_publish_stale hlt ((VersionArchive.visible_of_pos (by omega)).2 hn) hne]
  exact hreads

/-- A row is committed under number 5, and another one for the same key under number 1. -/
theorem stale_commit_of_first_row : ∃ s s' row, row ≠ Tuple.empty ∧
    Runs 16 (by decide) (putOneRow ++ [.op (.commit 1 5), .op (.put 2 (ascii "t") (.int64 7) row)]) s ∧
    (commit 2 1).run s = .ok .sentinel s' ∧
    s'.get 3 (ascii "t") (.int64 7) = s.get 3 (ascii "t") (.int64 7) := by
  obtain ⟨s₁, s₂, s₃, root, xs, ys, zs, -, hruns₂, -, -, -, -, hfirst₂, -⟩ := exists_first_row
  obtain ⟨row, hrow⟩ : ∃ row, row = Tuple.empty.set (ascii "a") .null := ⟨_, rfl⟩
  obtain ⟨t₁, ys₁, hcommit, hfirst⟩ := hfirst₂.commit (by decide) 1 5
  obtain ⟨t₂, ys₂, hput, hfirst'⟩ := hfirst.put (by decide) 2 row
    (by rw [hrow]; decide)
  obtain ⟨t₃, ys₃, hcommit', hlast⟩ := hfirst'.commit (by decide) 2 1
  have hruns := (hruns₂.call (.commit 1 5) hcommit).call (.put 2 (ascii "t") (.int64 7) row) hput
  refine ⟨t₂, t₃, row, by rw [hrow]; decide, hruns, hcommit', ?_⟩
  refine stale_commit_unseen hruns hcommit' ⟨5, 1, by decide, ?_⟩ hlast.tidyTable rfl 3
  exact Option.some_ne_none (some Tuple.empty)

end OpenDB
