import OpenDB.Storage.ArchiveReads

/-!
# Transactions that never commit

Two runs on a file: the second is the first without the calls of one transaction number, under which
nothing is ever committed and no row is put without a key. Clean restarts may come in between. The
models of the two runs agree but for the versions staged under that number (`ArchiveModel.SameBut`), so
every other transaction reads and scans the same (`uncommitted_unseen`).
-/

set_option autoImplicit false

namespace OpenDB

open OpenDB.Library

open LocalFileStorageProvider

/-! ## The calls of a transaction -/

/-- The transaction that makes the call. -/
def Op.author : Op → Option UInt64
  | .createTable _ | .dropTable _ | .alterTable .. => none
  | .put txn .. | .remove txn .. | .prepare txn | .commit txn _ | .commitNext txn | .abort txn => some txn

/-- The call neither commits nor takes a key from the counter of its table. -/
def Op.holdsBack : Op → Bool
  | .put _ _ key _ => !key.isNull
  | .commit .. | .commitNext _ => false
  | _ => true

/-- The event is a call of the transaction. -/
def Event.isBy (txn : UInt64) : Event → Bool
  | .op call => call.author == some txn
  | .restart => false

/-- The transaction makes no such call that would be seen. -/
def Event.holdsBack : Event → Bool
  | .op call => call.holdsBack
  | .restart => true

/-! ## Models -/

/-- The tables agree but for what one transaction has staged. -/
structure ArchivedTable.SameBut (t : ℕ) (T T' : ArchivedTable) : Prop where
  autoId : T.autoId = T'.autoId
  archive : T.archive.SameBut t T'.archive

namespace ArchivedTable.SameBut

variable {t : ℕ} {T T' : ArchivedTable} {txn : UInt64} {key : Value} {row : Tuple}

theorem refl (t : ℕ) (T : ArchivedTable) : T.SameBut t T := ⟨rfl, .refl t _⟩

theorem put_own (h : T.SameBut txn.toNat T') (hkey : key.isNull = false) :
    (T.put txn key row).SameBut txn.toNat T' := by
  rw [ArchivedTable.put, hkey, if_neg Bool.false_ne_true]
  exact ⟨h.autoId, h.archive.stage_left _ _⟩

theorem remove_own (h : T.SameBut txn.toNat T') : (T.remove txn key).SameBut txn.toNat T' :=
  ⟨h.autoId, h.archive.stage_left _ _⟩

theorem put (h : T.SameBut t T') (hne : txn.toNat ≠ t) :
    (T.put txn key row).SameBut t (T'.put txn key row) := by
  rw [ArchivedTable.put, ArchivedTable.put, h.autoId]
  split_ifs
  · exact ⟨rfl, h.archive.stage hne _ _⟩
  · exact ⟨rfl, h.archive.stage hne _ _⟩

theorem remove (h : T.SameBut t T') (hne : txn.toNat ≠ t) :
    (T.remove txn key).SameBut t (T'.remove txn key) :=
  ⟨h.autoId, h.archive.stage hne _ _⟩

theorem commit (h : T.SameBut t T') (hne : txn.toNat ≠ t) (seq : UInt64) :
    (T.commit txn seq).SameBut t (T'.commit txn seq) :=
  ⟨h.autoId, h.archive.publish hne _⟩

end ArchivedTable.SameBut

namespace ArchiveModel

/-- The models agree but for what one transaction has staged. -/
structure SameBut (t : ℕ) (M N : ArchiveModel) : Prop where
  tables : ∀ table, Option.Rel (ArchivedTable.SameBut t) (M.tables table) (N.tables table)
  visibleSeq : M.visibleSeq = N.visibleSeq
  internalSeq : M.internalSeq = N.internalSeq
  made : M.made = N.made

theorem rel_refl (t : ℕ) (T : Option ArchivedTable) : Option.Rel (ArchivedTable.SameBut t) T T := by
  cases T with
  | none => exact .none
  | some T => exact .some (.refl t T)

theorem rel_map {t : ℕ} {T T' : Option ArchivedTable} {write write' : ArchivedTable → ArchivedTable}
    (h : Option.Rel (ArchivedTable.SameBut t) T T')
    (hwrite : ∀ T T' : ArchivedTable, T.SameBut t T' → (write T).SameBut t (write' T')) :
    Option.Rel (ArchivedTable.SameBut t) (T.map write) (T'.map write') := by
  cases h with
  | none => exact .none
  | some hT => exact .some (hwrite _ _ hT)

namespace SameBut

variable {t : ℕ} {M N : ArchiveModel} {txn : UInt64} {op : Op}

theorem refl (t : ℕ) (M : ArchiveModel) : M.SameBut t M :=
  ⟨fun _ => rel_refl t _, rfl, rfl, rfl⟩

theorem setTable (h : M.SameBut t N) (name : Bytes) {T T' : Option ArchivedTable}
    (hT : Option.Rel (ArchivedTable.SameBut t) T T') :
    (M.setTable name T).SameBut t (N.setTable name T') := by
  refine ⟨?_, h.visibleSeq, h.internalSeq, h.made⟩
  intro table
  show Option.Rel _ (Function.update M.tables name T table) (Function.update N.tables name T' table)
  by_cases htable : table = name
  · rw [htable, Function.update_self, Function.update_self]
    exact hT
  · rw [Function.update_of_ne htable, Function.update_of_ne htable]
    exact h.tables table

theorem isNone_table (h : M.SameBut t N) (table : Bytes) :
    (M.tables table).isNone = (N.tables table).isNone := by
  have hrel := h.tables table
  generalize M.tables table = T, N.tables table = T' at hrel ⊢
  cases hrel with
  | none => rfl
  | some => rfl

theorem isSome_table (h : M.SameBut t N) (table : Bytes) :
    (M.tables table).isSome = (N.tables table).isSome := by
  rw [← Option.not_isNone, ← Option.not_isNone, h.isNone_table]

theorem commit (h : M.SameBut t N) (hne : txn.toNat ≠ t) (seq : UInt64) :
    (M.commit txn seq).SameBut t (N.commit txn seq) := by
  refine ⟨?_, ?_, h.internalSeq, h.made⟩
  · intro table
    exact rel_map (h.tables table) fun _ _ hT => hT.commit hne seq
  · show (if M.visibleSeq < seq then seq else M.visibleSeq) = _
    rw [h.visibleSeq]
    rfl

/-- A call of the transaction itself, in the first run only. -/
theorem exec_own (h : M.SameBut txn.toNat N) (hauthor : op.author = some txn)
    (hholds : op.holdsBack = true) : (M.exec op).SameBut txn.toNat N := by
  have hwrite : ∀ {table : Bytes} {write : ArchivedTable → ArchivedTable},
      (∀ T T' : ArchivedTable, T.SameBut txn.toNat T' → (write T).SameBut txn.toNat T') →
      (M.setTable table ((M.tables table).map write)).SameBut txn.toNat N := by
    intro table write hwrite
    have hmap : Option.Rel (ArchivedTable.SameBut txn.toNat) ((M.tables table).map write)
        ((N.tables table).map id) := rel_map (h.tables table) hwrite
    have hset := h.setTable table hmap
    rw [Option.map_id, id_eq, Mirrors.setTable_self] at hset
    exact hset
  cases op with
  | put writer table key row =>
    cases hauthor
    exact hwrite fun _ _ hT => hT.put_own (by simpa [Op.holdsBack] using hholds)
  | remove writer table key =>
    cases hauthor
    exact hwrite fun _ _ hT => hT.remove_own
  | prepare | abort => exact h
  | commit | commitNext => cases hholds
  | createTable | dropTable | alterTable => cases hauthor

/-- A call of anyone else, in both runs. -/
theorem exec (h : M.SameBut txn.toNat N) (hauthor : op.author ≠ some txn) :
    (M.exec op).SameBut txn.toNat (N.exec op) := by
  have hother : ∀ {writer : UInt64}, some writer ≠ some txn → writer.toNat ≠ txn.toNat := by
    intro writer hne heq
    exact hne (congrArg some (UInt64.toNat_inj.1 heq))
  cases op with
  | createTable schema =>
    rw [ArchiveModel.exec, ArchiveModel.exec, admitsTable, admitsTable, h.isNone_table]
    split_ifs
    · exact h.setTable _ (rel_refl _ _)
    · exact h
  | dropTable name => exact h.setTable name .none
  | alterTable name spec =>
    cases spec with
    | addColumn | dropColumn => exact h
    | renameTable newName =>
      rw [ArchiveModel.exec, ArchiveModel.exec, admitsRename, admitsRename, h.isSome_table,
        h.isNone_table]
      split_ifs
      · exact (h.setTable name .none).setTable newName (h.tables name)
      · exact h
  | put writer table key row =>
    exact h.setTable table (rel_map (h.tables table) fun _ _ hT => hT.put (hother hauthor))
  | remove writer table key =>
    exact h.setTable table (rel_map (h.tables table) fun _ _ hT => hT.remove (hother hauthor))
  | prepare | abort => exact h
  | commit writer seq => exact h.commit (hother hauthor) seq
  | commitNext writer =>
    have hnext : SameBut txn.toNat { M with internalSeq := M.internalSeq + 1 }
        { N with internalSeq := N.internalSeq + 1 } :=
      ⟨h.tables, h.visibleSeq, by rw [h.internalSeq], h.made⟩
    rw [ArchiveModel.exec, ArchiveModel.exec, ← h.internalSeq]
    rw [← h.internalSeq] at hnext
    exact hnext.commit (hother hauthor) _

theorem restart (h : M.SameBut t N) : M.restart.SameBut t N.restart := by
  rw [ArchiveModel.restart, ArchiveModel.restart, h.made]
  split_ifs
  · exact ⟨h.tables, h.visibleSeq, h.internalSeq, rfl⟩
  · exact refl t _

end SameBut

/-- The run with the calls of the transaction, and the run without them. -/
theorem sameBut_after {txn : UInt64} (events : List Event)
    (hholds : ∀ e ∈ events, e.isBy txn = true → e.holdsBack = true) :
    (after events).SameBut txn.toNat (after (events.filter fun e => !e.isBy txn)) := by
  induction events using List.reverseRecOn with
  | nil => exact .refl _ _
  | append_singleton events event ih =>
    have hbefore := ih fun e he => hholds e (List.mem_append_left _ he)
    have hlast := hholds event (by simp)
    rw [after_concat, List.filter_append]
    cases event with
    | restart =>
      rw [List.filter_cons_of_pos (by rfl), List.filter_nil, after_concat]
      exact hbefore.restart
    | op op =>
      by_cases hby : op.author = some txn
      · have hown : (Event.op op).isBy txn = true := beq_iff_eq.2 hby
        rw [List.filter_cons_of_neg (by rw [hown]; exact Bool.false_ne_true), List.filter_nil,
          List.append_nil]
        exact hbefore.exec_own hby (hlast hown)
      · have hother : (Event.op op).isBy txn = false := beq_eq_false_iff_ne.2 hby
        rw [List.filter_cons_of_pos (by rw [hother]; rfl), List.filter_nil, after_concat]
        exact hbefore.exec hby

theorem SameBut.archive {t : ℕ} {M N : ArchiveModel} (h : M.SameBut t N) (table : Bytes) :
    (M.archive table).SameBut t (N.archive table) := by
  rw [ArchiveModel.archive, ArchiveModel.archive]
  have hrel := h.tables table
  generalize M.tables table = T, N.tables table = T' at hrel ⊢
  cases hrel with
  | none => exact .refl t _
  | some hT => exact hT.archive

theorem SameBut.reads_iff {t : ℕ} {M N : ArchiveModel} (h : M.SameBut t N) {u : UInt64}
    (hne : u.toNat ≠ t) {table : Bytes} {key : Value} {value : Option Tuple} :
    M.Reads u table key value ↔ N.Reads u table key value := by
  rw [Reads, Reads, ← h.visibleSeq]
  exact (h.archive table).reads_iff hne

end ArchiveModel

/-! ## The provider -/

/-- A run, and the same run without the calls of a transaction number under which nothing is ever
committed: every other transaction reads every key and scans every table the same. -/
theorem uncommitted_unseen {capacity : Nat} {hcap : capacity < 2 ^ 32} {events : List Event}
    {s s' : LocalFileStorageProvider} {txn : UInt64} (h : Runs capacity hcap events s)
    (h' : Runs capacity hcap (events.filter fun e => !e.isBy txn) s')
    (hholds : ∀ e ∈ events, e.isBy txn = true → e.holdsBack = true) {table : Bytes}
    (htidy : s.TidyTable table) (htidy' : s'.TidyTable table) {u : UInt64} (hne : u ≠ txn) :
    (∀ key, key.isNaN = false → s'.get u table key = s.get u table key) ∧
      s'.scan u table = s.scan u table := by
  have hsame := ArchiveModel.sameBut_after events hholds
  have hnat : u.toNat ≠ txn.toNat := fun heq => hne (UInt64.toNat_inj.1 heq)
  constructor
  · intro key hkey
    exact h.get_congr h' htidy htidy' hkey fun value hreads => (hsame.reads_iff hnat).1 hreads
  · obtain ⟨⟨F, hmirrors⟩, -⟩ := h.mirrors
    obtain ⟨⟨F', hmirrors'⟩, -⟩ := h'.mirrors
    obtain ⟨rows, hscan, hlists⟩ := hmirrors.scan htidy u
    obtain ⟨rows', hscan', hlists'⟩ := hmirrors'.scan htidy' u
    rw [hscan, hscan']
    refine congrArg Except.ok (Lists.rows_eq hlists' hlists fun k hk => ?_)
    obtain ⟨value, -, hreads⟩ := hmirrors.get htidy u hk
    exact ⟨value, (hsame.reads_iff hnat).1 hreads, hreads⟩

/-- The first row stays staged, and another transaction writes and commits the same key. -/
theorem uncommitted_first_row_unseen : ∃ s s',
    Runs 16 (by decide) (putOneRow ++ [.op (.put 2 (ascii "t") (.int64 7) Tuple.empty),
      .op (.commit 2 1)]) s ∧
    Runs 16 (by decide) [.op (.createTable (emptySchema (ascii "t"))),
      .op (.put 2 (ascii "t") (.int64 7) Tuple.empty), .op (.commit 2 1)] s' ∧
    s'.get 3 (ascii "t") (.int64 7) = s.get 3 (ascii "t") (.int64 7) ∧
    s'.scan 3 (ascii "t") = s.scan 3 (ascii "t") := by
  obtain ⟨s₁, s₂, s₃, root, xs, ys, zs, hruns₁, hruns₂, -, -, -, hfirst₁, hfirst₂, -⟩ :=
    exists_first_row
  -- with the row that stays staged
  obtain ⟨t₁, ys₁, hput, hfirst⟩ := hfirst₂.put (by decide) 2 Tuple.empty (by decide)
  obtain ⟨t₂, ys₂, hcommit, hlast⟩ := hfirst.commit (by decide) 2 1
  have hruns := (hruns₂.call (.put 2 (ascii "t") (.int64 7) Tuple.empty) hput).call (.commit 2 1) hcommit
  -- and without it
  obtain ⟨u₁, zs₁, hput', hfirst'⟩ := hfirst₁.put (by decide) 2 Tuple.empty (by decide)
  obtain ⟨u₂, zs₂, hcommit', hlast'⟩ := hfirst'.commit (by decide) 2 1
  have hruns' := (hruns₁.call (.put 2 (ascii "t") (.int64 7) Tuple.empty) hput').call (.commit 2 1)
    hcommit'
  -- it is the run without the calls of transaction 1
  have hwithout : Runs 16 (by decide) ((putOneRow ++
      [Event.op (.put 2 (ascii "t") (.int64 7) Tuple.empty)] ++ [Event.op (.commit 2 1)]).filter
        fun e => !e.isBy 1) u₂ := hruns'
  have hne : (3 : UInt64) ≠ 1 := by decide
  have hunseen := uncommitted_unseen hruns hwithout (by decide) hlast.tidyTable hlast'.tidyTable hne
  exact ⟨t₂, u₂, hruns, hruns', hunseen.1 _ rfl, hunseen.2⟩

end OpenDB
