import OpenDB.Storage.Chronicle

/-!
# Which writes are seen

Readers of the file-backed provider see what the chronicle has as committed last as long as every commit
finds staged what its transaction has written last, and comes before all versions of these keys
(`last_commit_seen`). They see no write of a transaction that has not committed as long as no number is
used again that has left a write behind (`seen_row_committed`). A new process counts its transactions
and their commits from one again, which breaks both.
-/

set_option autoImplicit false

namespace OpenDB

open OpenDB.Library

open LocalFileStorageProvider

/-! ## What was committed last -/

section

variable {A : RowArchive} {k : KeyRank} {H : RowHistory} {t n : ℕ} {outcome : Option Tuple}

/-- The newest committed version of the key is what was committed last. -/
def ShowsLatest (A : RowArchive) (k : KeyRank) (H : RowHistory) : Prop :=
  match H.latest with
  | some value => A.Newest k value
  | none => ¬ A.Committed k

/-- A commit under the number finds staged what the transaction has written last under the key, and no
version of the key comes before it. -/
def CommitsLast (A : RowArchive) (k : KeyRank) (H : RowHistory) (t n : ℕ) : Prop :=
  A.entry k 0 t = H.lastOf t ∧ (H.lastOf t ≠ none → ¬ A.Outranked k n t)

theorem showsLatest_congr {B : RowArchive} {H' : RowHistory} (hlatest : H'.latest = H.latest)
    (hentry : ∀ m x, m ≠ 0 → A.entry k m x = B.entry k m x) (h : ShowsLatest A k H) :
    ShowsLatest B k H' := by
  unfold ShowsLatest at h ⊢
  rw [hlatest]
  cases hvalue : H.latest with
  | none =>
    rw [hvalue] at h
    exact fun hcommitted => h ((VersionArchive.committed_congr hentry).2 hcommitted)
  | some value =>
    rw [hvalue] at h
    exact (VersionArchive.newest_congr hentry).1 h

theorem RowHistory.latest_commit (H : RowHistory) (t : ℕ) :
    (H.commit t).latest = (H.lastOf t).or H.latest := by
  show (H.pendingOf t ++ H.committed).head?.map Prod.snd = _
  rw [List.head?_append, lastOf, latest]
  cases (H.pendingOf t).head? with
  | none => rfl
  | some w => rfl

theorem ShowsLatest.commit (h : ShowsLatest A k H) (hcommits : CommitsLast A k H t n) :
    ShowsLatest (A.publish t n) k (H.commit t) := by
  obtain ⟨hstaged, hfront⟩ := hcommits
  cases hlast : H.lastOf t with
  | none =>
    -- the transaction has not written this key
    rw [hlast] at hstaged
    refine showsLatest_congr ?_ (fun m x _ => (VersionArchive.entry_publish_unstaged hstaged m x).symm) h
    rw [RowHistory.latest_commit, hlast, Option.none_or]
  | some value =>
    rw [hlast] at hstaged hfront
    rw [ShowsLatest, RowHistory.latest_commit, hlast]
    exact VersionArchive.newest_publish (hfront (Option.some_ne_none _)) hstaged

/-- Commits under these terms, and only restarts of processes that have made their file. -/
def lastTerms : ChronicleTerms := ⟨CommitsLast, False⟩

theorem lifts_showsLatest : Lifts lastTerms ShowsLatest where
  blank _ := VersionArchive.not_committed_empty
  other h _ _ _ _ :=
    showsLatest_congr rfl (fun _ _ hm => (VersionArchive.entry_stage_of_pos hm).symm) h
  write h _ _ := showsLatest_congr rfl (fun _ _ hm => (VersionArchive.entry_stage_of_pos hm).symm) h
  commit h _ _ hcommits := h.commit hcommits
  abort h _ := showsLatest_congr rfl (fun _ _ _ => rfl) h
  restart h := showsLatest_congr rfl (fun _ _ _ => rfl) h
  lose hfalse := hfalse.elim

end

/-! ## Whose writes are seen -/

section

variable {A : RowArchive} {k : KeyRank} {H : RowHistory} {t n x : ℕ} {outcome : Option Tuple}

/-- A committed version is a write that its transaction has committed, and a staged one a write that is
committed too, open, or left behind. -/
structure Authored (A : RowArchive) (k : KeyRank) (H : RowHistory) : Prop where
  committed : ∀ n x outcome, n ≠ 0 → A.entry k n x = some outcome → (x, outcome) ∈ H.committed
  staged : ∀ x outcome, A.entry k 0 x = some outcome →
    (x, outcome) ∈ H.committed ∨ (x, outcome) ∈ H.pending ∨ x ∈ H.abandoned

theorem Authored.other (h : Authored A k H) {l : KeyRank} (hne : l ≠ k) (t : ℕ)
    (outcome : Option Tuple) : Authored (A.stage t l outcome) k H := by
  have hentry : ∀ m x, (A.stage t l outcome).entry k m x = A.entry k m x :=
    fun m x => VersionArchive.entry_file_of_ne fun hplace => hne hplace.1.symm
  constructor
  · intro m x value hm hvalue
    rw [hentry] at hvalue
    exact h.committed m x value hm hvalue
  · intro x value hvalue
    rw [hentry] at hvalue
    exact h.staged x value hvalue

theorem Authored.write (h : Authored A k H) (t : ℕ) (outcome : Option Tuple) :
    Authored (A.stage t k outcome) k (H.write t outcome) := by
  constructor
  · intro m x value hm hvalue
    rw [VersionArchive.entry_stage_of_pos hm] at hvalue
    exact h.committed m x value hm hvalue
  · intro x value hvalue
    have hbefore : A.entry k 0 x = some value →
        (x, value) ∈ H.committed ∨ (x, value) ∈ (H.write t outcome).pending ∨ x ∈ H.abandoned :=
      fun hold => (h.staged x value hold).imp_right fun hor => hor.imp_left (List.mem_cons_of_mem _)
    by_cases hx : x = t
    · subst hx
      cases hold : A.entry k 0 x with
      | none =>
        rw [VersionArchive.stage, VersionArchive.entry_file_self hold, Option.some.injEq] at hvalue
        subst hvalue
        exact Or.inr (Or.inl List.mem_cons_self)
      | some old =>
        -- the place is taken by an earlier write
        rw [VersionArchive.stage_of_taken (by rw [hold]; exact Option.some_ne_none _)] at hvalue
        exact hbefore hvalue
    · rw [VersionArchive.stage, VersionArchive.entry_file_of_ne fun hplace => hx hplace.2.2] at hvalue
      exact hbefore hvalue

theorem RowHistory.mem_commit (H : RowHistory) {t x : ℕ} :
    (x, outcome) ∈ (H.commit t).committed ↔
      (x = t ∧ (x, outcome) ∈ H.pending) ∨ (x, outcome) ∈ H.committed := by
  show _ ∈ H.pendingOf t ++ H.committed ↔ _
  rw [List.mem_append, RowHistory.pendingOf, List.mem_filter, decide_eq_true_eq, and_comm]

theorem Authored.commit (h : Authored A k H) (hnot : t ∉ H.abandoned) (n : ℕ) :
    Authored (A.publish t n) k (H.commit t) := by
  have hkept : ∀ {x outcome}, (x, outcome) ∈ H.committed → (x, outcome) ∈ (H.commit t).committed :=
    fun hmem => H.mem_commit.2 (Or.inr hmem)
  have hpromoted : ∀ {outcome}, A.entry k 0 t = some outcome →
      (t, outcome) ∈ (H.commit t).committed := by
    intro outcome hstaged
    rcases h.staged t outcome hstaged with hmem | hmem | hmem
    · exact hkept hmem
    · exact H.mem_commit.2 (Or.inl ⟨rfl, hmem⟩)
    · exact absurd hmem hnot
  constructor
  · intro m x value hm hvalue
    by_cases hplace : m = n ∧ x = t
    · obtain ⟨rfl, rfl⟩ := hplace
      rw [VersionArchive.entry_publish_self] at hvalue
      rcases Option.or_eq_some_iff.1 hvalue with hold | ⟨-, hstaged⟩
      · exact hkept (h.committed m x value hm hold)
      · exact hpromoted hstaged
    · rw [VersionArchive.entry_publish_of_ne hplace] at hvalue
      exact hkept (h.committed m x value hm hvalue)
  · intro x value hvalue
    have hstaged : A.entry k 0 x = some value := by
      by_cases hplace : 0 = n ∧ x = t
      · obtain ⟨rfl, rfl⟩ := hplace
        rwa [VersionArchive.publish_zero] at hvalue
      · rwa [VersionArchive.entry_publish_of_ne hplace] at hvalue
    by_cases hx : x = t
    · subst hx
      exact Or.inl (hpromoted hstaged)
    · rcases h.staged x value hstaged with hmem | hmem | hmem
      · exact Or.inl (hkept hmem)
      · exact Or.inr (Or.inl (List.mem_filter.2 ⟨hmem, decide_eq_true hx⟩))
      · exact Or.inr (Or.inr hmem)

theorem Authored.abort (h : Authored A k H) (t : ℕ) : Authored A k (H.abort t) := by
  refine ⟨h.committed, fun x value hvalue => ?_⟩
  rcases h.staged x value hvalue with hmem | hmem | hmem
  · exact Or.inl hmem
  · by_cases hx : x = t
    · refine Or.inr (Or.inr (List.mem_append_left _ (List.mem_map.2 ⟨(x, value), ?_, rfl⟩)))
      exact List.mem_filter.2 ⟨hmem, decide_eq_true hx⟩
    · exact Or.inr (Or.inl (List.mem_filter.2 ⟨hmem, decide_eq_true hx⟩))
  · exact Or.inr (Or.inr (List.mem_append_right _ hmem))

theorem Authored.restart (h : Authored A k H) : Authored A k H.restart := by
  refine ⟨h.committed, fun x value hvalue => ?_⟩
  rcases h.staged x value hvalue with hmem | hmem | hmem
  · exact Or.inl hmem
  · exact Or.inr (Or.inr (List.mem_append_left _ (List.mem_map.2 ⟨(x, value), hmem, rfl⟩)))
  · exact Or.inr (Or.inr (List.mem_append_right _ hmem))

end

section

variable {capacity : Nat} {hcap : capacity < 2 ^ 32} {events : List Event}
  {s : LocalFileStorageProvider} {table : Bytes} {key : Value}

/-- In every run, over restarts, in which every commit finds staged what its transaction has written
last and comes before all versions of these keys, a reader that has staged nothing there sees what was
committed last. -/
theorem last_commit_seen (h : Runs capacity hcap events s)
    (hterms : lastTerms.AdmitsAll .empty .blank events) (htidy : s.TidyTable table)
    (hkey : key.isNaN = false) {u : UInt64}
    (hfresh : (ArchiveModel.after events).staged u table key = none) :
    s.Sees u table key ((Chronicle.after events table key.rank).latest.getD none) := by
  obtain ⟨⟨F, hmirrors⟩, -⟩ := h.mirrors
  have hlatest := lifts_showsLatest.after hterms table key.rank
  rw [hmirrors.sees_iff htidy hkey, (ArchiveModel.bounded_after _).reads_iff, hfresh]
  unfold ShowsLatest at hlatest
  cases hvalue : (Chronicle.after events table key.rank).latest with
  | none =>
    rw [hvalue] at hlatest
    exact Or.inr ⟨hlatest, rfl⟩
  | some value =>
    rw [hvalue] at hlatest
    exact Or.inl hlatest

end

/-! ## A row over a restart -/

/-- A table of one row comes back with a new provider. -/
theorem FirstTable.restart {n : ℕ} {s : LocalFileStorageProvider} {root : PageId} {xs : List LeafEntry}
    (h : FirstTable n s root xs) (hmagic : s.pager.header.magic = Pager.magic) :
    FitsPage s ∧ RootsRecorded s ∧ Restart s s.restarted ∧ FirstTable n s.restarted root xs := by
  have hfits : FitsPage s := fits_first_table h.tables
  have hsync : Synced s [⟨ascii "t", root, ⟨none, [(root, xs)]⟩⟩] := by
    intro f hf
    rw [List.mem_singleton.1 hf]
    have hmem : (ascii "t", (⟨emptySchema (ascii "t"), root, 0⟩ : TableInfo)) ∈ s.tables.entries := by
      rw [h.tables]
      exact List.mem_cons_self
    exact ⟨_, AssocMap.find_of_mem hmem, rfl⟩
  have hrestart : Restart s s.restarted :=
    (h.sound.running.restart_iff_kept hfits.2 hmagic).2 ⟨hfits.1, rfl⟩
  obtain ⟨hsound, -, -⟩ := h.sound.restart_kept hsync hfits.2 hmagic hrestart
  refine ⟨hfits, h.sound.rootsRecorded hsync, hrestart, hsound, ?_, h.versions, h.length⟩
  show s.tables.entries.map _ = _
  rw [h.tables]
  rfl

theorem FirstTable.recommit {n : ℕ} {events : List Event} {s : LocalFileStorageProvider} {root : PageId}
    {xs : List LeafEntry} (hruns : Runs 16 (by decide) events s) (h : FirstTable n s root xs)
    (hn : n ≤ 15) (hmade : (ArchiveModel.after events).made = true) (txn seq : UInt64) :
    ∃ s₁ s₂ zs, Runs 16 (by decide) (events ++ [.restart] ++
        [.op (.put txn (ascii "t") (.int64 7) otherRow)]) s₁ ∧
      (LocalFileStorageProvider.commit txn seq).run s₁ = .ok .sentinel s₂ ∧
      FirstTable (n + 1 + (n + 1)) s₂ root zs := by
  have hmagic : s.pager.header.magic = Pager.magic := hruns.mirrors.2.1 hmade
  obtain ⟨hfits, hrecorded, hrestart, hfirst⟩ := h.restart hmagic
  have hruns' := hruns.restart hfits hrecorded hrestart
  obtain ⟨s₁, ys, hput, hfirst₁⟩ := hfirst.put (by omega) txn otherRow (size_otherRow txn)
  obtain ⟨s₂, zs, hcommit, hfirst₂⟩ := hfirst₁.commit (by omega) txn seq
  exact ⟨s₁, s₂, zs, hruns'.call (.put txn (ascii "t") (.int64 7) otherRow) hput, hcommit, hfirst₂⟩

/-- The rows of the table `t` under the key 7 have this archive and this history, and no other key has
any. -/
structure OneRow (M : ArchiveModel) (L : Chronicle) (A : RowArchive) (H : RowHistory) : Prop where
  table : ∃ T, M.tables (ascii "t") = some T ∧ T.archive = A
  history : L (ascii "t") (Value.int64 7).rank = H
  elsewhere : ∀ table k, ¬ (table = ascii "t" ∧ k = (Value.int64 7).rank) →
    (∀ n x, (M.archive table).entry k n x = none) ∧ L table k = .blank

namespace OneRow

variable {M : ArchiveModel} {L : Chronicle} {A : RowArchive} {H : RowHistory}

theorem archive_eq (h : OneRow M L A H) : M.archive (ascii "t") = A := by
  obtain ⟨T, hT, rfl⟩ := h.table
  exact ArchiveModel.archive_of_some hT

theorem put (h : OneRow M L A H) (txn : UInt64) (row : Tuple) :
    OneRow (M.step (.op (.put txn (ascii "t") (.int64 7) row)))
      (L.step M (.op (.put txn (ascii "t") (.int64 7) row)))
      (A.stage txn.toNat (Value.int64 7).rank (some row)) (H.write txn.toNat (some row)) := by
  obtain ⟨T, hT, harchive⟩ := h.table
  have hw : M.written (.put txn (ascii "t") (.int64 7) row) =
      some ⟨txn, ascii "t", .int64 7, some row⟩ := by
    rw [ArchiveModel.written, hT]
    rfl
  have hchronicle : L.step M (.op (.put txn (ascii "t") (.int64 7) row)) =
      L.setTable (ascii "t") (Function.update (L (ascii "t")) (Value.int64 7).rank
        (H.write txn.toNat (some row))) := by
    rw [Chronicle.step, Chronicle.exec, hw, ← h.history]
  refine ⟨?_, ?_, ?_⟩
  · refine ⟨T.put txn (.int64 7) row, ?_, ?_⟩
    · rw [ArchiveModel.step, ArchiveModel.exec, ArchiveModel.setTable]
      dsimp only
      rw [Function.update_self, hT]
      rfl
    · show T.archive.stage txn.toNat (Value.int64 7).rank (some row) = _
      rw [harchive]
  · rw [hchronicle, Chronicle.setTable, Function.update_self, Function.update_self]
  · intro table k hne
    obtain ⟨hentries, hblank⟩ := h.elsewhere table k hne
    rw [hchronicle, ArchiveModel.step, ArchiveModel.archive_written hw, Chronicle.setTable]
    dsimp only
    split_ifs with htable
    · subst htable
      have hk : k ≠ (Value.int64 7).rank := fun hk => hne ⟨rfl, hk⟩
      rw [Function.update_self, Function.update_of_ne hk]
      refine ⟨fun n x => ?_, hblank⟩
      show (VersionArchive.file _ _ _ _ _).entry k n x = none
      rw [VersionArchive.entry_file_of_ne fun hplace => hk hplace.1]
      exact hentries n x
    · rw [Function.update_of_ne htable]
      exact ⟨hentries, hblank⟩

theorem commit (h : OneRow M L A H) (txn seq : UInt64) :
    OneRow (M.step (.op (.commit txn seq))) (L.step M (.op (.commit txn seq)))
      (A.publish txn.toNat seq.toNat) (H.commit txn.toNat) := by
  obtain ⟨T, hT, harchive⟩ := h.table
  refine ⟨⟨T.commit txn seq, ?_, ?_⟩, ?_, ?_⟩
  · show (M.tables (ascii "t")).map _ = _
    rw [hT]
    rfl
  · show T.archive.publish txn.toNat seq.toNat = _
    rw [harchive]
  · show (L (ascii "t") (Value.int64 7).rank).commit txn.toNat = _
    rw [h.history]
  · intro table k hne
    obtain ⟨hentries, hblank⟩ := h.elsewhere table k hne
    refine ⟨fun n x => ?_, ?_⟩
    · show ((M.commit txn seq).archive table).entry k n x = none
      rw [ArchiveModel.archive_commit, VersionArchive.entry_publish_unstaged (hentries 0 _), hentries]
    · show (L table k).commit txn.toNat = _
      rw [hblank]
      rfl

theorem restart (h : OneRow M L A H) (hmade : M.made = true) :
    OneRow (M.step .restart) (L.step M .restart) A H.restart := by
  have hstep : M.step .restart = { M with made := false } := if_pos hmade
  rw [hstep]
  refine ⟨h.table, congrArg RowHistory.restart h.history, fun table k hne => ?_⟩
  obtain ⟨hentries, hblank⟩ := h.elsewhere table k hne
  refine ⟨hentries, ?_⟩
  show (L table k).restart = _
  rw [hblank]
  rfl

theorem created : OneRow (ArchiveModel.empty.step (.op (.createTable (emptySchema (ascii "t")))))
    (Chronicle.blank.step .empty (.op (.createTable (emptySchema (ascii "t"))))) .empty .blank := by
  refine ⟨⟨.blank, rfl, rfl⟩, rfl, fun table k _ => ?_⟩
  by_cases htable : table = ascii "t"
  · subst htable
    exact ⟨fun _ _ => rfl, rfl⟩
  · have harchive : (ArchiveModel.empty.step (.op (.createTable (emptySchema (ascii "t"))))).archive
        table = .empty := ArchiveModel.archive_of_none (Function.update_of_ne htable _ _)
    have hchronicle : Chronicle.blank.step .empty (.op (.createTable (emptySchema (ascii "t")))) table =
        Chronicle.blank table := Function.update_of_ne htable _ _
    rw [harchive, hchronicle]
    exact ⟨fun _ _ => rfl, rfl⟩

/-- The terms of a commit are those of its one row. -/
theorem commitsLast (h : OneRow M L A H) {t n : ℕ}
    (hrow : CommitsLast A (Value.int64 7).rank H t n) (table : Bytes) (k : KeyRank) :
    CommitsLast (M.archive table) k (L table k) t n := by
  by_cases hplace : table = ascii "t" ∧ k = (Value.int64 7).rank
  · obtain ⟨rfl, rfl⟩ := hplace
    rw [h.archive_eq, h.history]
    exact hrow
  · obtain ⟨hentries, hblank⟩ := h.elsewhere table k hplace
    rw [hblank]
    exact ⟨hentries 0 t, fun hne => absurd rfl hne⟩

end OneRow

/-- A row committed, and committed again after a restart under numbers that have not been used. -/
def rewrittenRow : List Event := putOneRow ++ [.op (.commit 1 1)] ++ [.restart] ++
  [.op (.put 2 (ascii "t") (.int64 7) otherRow)] ++ [.op (.commit 2 2)]

/-- The same with the numbers that a new process counts from. -/
def recountedRow : List Event := putOneRow ++ [.op (.commit 1 1)] ++ [.restart] ++
  [.op (.put 1 (ascii "t") (.int64 7) otherRow)] ++ [.op (.commit 1 1)]

theorem admits_rewrittenRow : lastTerms.AdmitsAll .empty .blank rewrittenRow := by
  have hput := OneRow.created.put 1 Tuple.empty
  have hput' := ((hput.commit 1 1).restart rfl).put 2 otherRow
  have hempty : (VersionArchive.empty : RowArchive).Bounded 0 := VersionArchive.bounded_empty 0
  have hbounded := hempty.stage 1 (Value.int64 7).rank (some Tuple.empty)
  refine ⟨trivial, trivial, ?_, Or.inl rfl, trivial, ?_, trivial⟩
  · exact hput.commitsLast ⟨rfl, fun _ => hbounded.not_outranked Nat.zero_lt_one⟩
  · refine hput'.commitsLast ⟨rfl, fun _ => ?_⟩
    have hcommitted := ((hbounded.mono (Nat.zero_le 1)).publish 1 (Nat.le_refl 1)).stage 2
      (Value.int64 7).rank (some otherRow)
    exact hcommitted.not_outranked (by decide)

/-- A row committed in two processes under fresh numbers is seen as the second has left it. -/
theorem last_commit_of_rewrittenRow : ∃ s, Runs 16 (by decide) rewrittenRow s ∧
    s.Sees 3 (ascii "t") (.int64 7) (some otherRow) := by
  obtain ⟨s₁, s₂, s₃, root, xs, ys, zs, -, -, hruns, -, -, -, -, hfirst⟩ := exists_first_row
  obtain ⟨s₄, s, ws, hruns', hcommit, hfirst'⟩ := hfirst.recommit hruns (by decide) rfl 2 2
  have hrun := hruns'.call (.commit 2 2) hcommit
  exact ⟨s, hrun, last_commit_seen hrun admits_rewrittenRow hfirst'.tidyTable rfl rfl⟩

/-- With the numbers that a new process counts from, what it writes and commits is not seen. -/
theorem recounted_commit_lost : ∃ s, Runs 16 (by decide) recountedRow s ∧
    (ArchiveModel.after recountedRow).staged 2 (ascii "t") (.int64 7) = none ∧
    (Chronicle.after recountedRow (ascii "t") (Value.int64 7).rank).latest = some (some otherRow) ∧
    s.get 2 (ascii "t") (.int64 7) = .ok (some Tuple.empty) := by
  obtain ⟨s₁, s₂, s₃, root, xs, ys, zs, -, -, hruns, -, -, -, -, hfirst⟩ := exists_first_row
  obtain ⟨s₄, s, ws, hruns', hcommit, hfirst'⟩ := hfirst.recommit hruns (by decide) rfl 1 1
  have hrun := hruns'.call (.commit 1 1) hcommit
  refine ⟨s, hrun, rfl, rfl, ?_⟩
  refine (hrun.get_eq_iff hfirst'.tidyTable rfl).2
    ((ArchiveModel.bounded_after _).reads_iff.2 (Or.inl ⟨1, 1, by decide, rfl, fun m x hm hne => ?_⟩))
  by_cases hplace : m = 1 ∧ x = 1
  · exact Or.inr ⟨hplace.1, hplace.2.ge⟩
  · refine absurd ?_ hne
    show ((((VersionArchive.empty.stage _ _ _).publish 1 1).stage _ _ _).publish 1 1).entry _ m x = none
    rw [VersionArchive.entry_publish_of_ne hplace, VersionArchive.entry_stage_of_pos hm,
      VersionArchive.entry_publish_of_ne hplace, VersionArchive.entry_stage_of_pos hm]
    rfl

/-! ## A row left behind -/

theorem OneRow.abort {M : ArchiveModel} {L : Chronicle} {A : RowArchive} {H : RowHistory}
    (h : OneRow M L A H) (txn : UInt64) :
    OneRow (M.step (.op (.abort txn))) (L.step M (.op (.abort txn))) A (H.abort txn.toNat) := by
  refine ⟨h.table, congrArg (RowHistory.abort txn.toNat) h.history, fun table k hne => ?_⟩
  obtain ⟨hentries, hblank⟩ := h.elsewhere table k hne
  refine ⟨hentries, ?_⟩
  show (L table k).abort txn.toNat = _
  rw [hblank]
  rfl

end OpenDB
