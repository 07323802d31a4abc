import OpenDB.Storage.Intact
import OpenDB.Storage.RootSync

/-!
# Promotion

`commit` collects the versions that the transaction has staged in a table and puts each of them once
more into the same tree, under the commit sequence number. `Promotes` says what that has to do to the
entries of the table: none is lost, only copies of staged versions are new, and every staged version
finds its key under the commit sequence number afterwards.

It does so in every provider that operations lead to (`Reachable`), with exceptions and restarts on
the way: `Intact` is enough, which does not say on which leaf a key is.
-/

set_option autoImplicit false

namespace OpenDB

open OpenDB.Library

open LocalFileStorageProvider

/-! ## Providers that operations lead to -/

/-- The open providers of a file: operations return, or throw and no node has overrun its page, and at
any time the provider is closed and the file opened anew. -/
inductive Reachable (capacity : Nat) (h : capacity < 2 ^ 32) : LocalFileStorageProvider → Prop where
  | opened {r : DbError} {s : LocalFileStorageProvider}
      (hopen : (openFile []).run (LocalFileStorageProvider.new capacity h) = .ok r s) :
      Reachable capacity h s
  | returned {op : Op} {r : DbError} {s s' : LocalFileStorageProvider} (hs : Reachable capacity h s)
      (hcall : op.exec.run s = .ok r s') : Reachable capacity h s'
  | threw {op : Op} {f : Fault} {s s' : LocalFileStorageProvider} (hs : Reachable capacity h s)
      (hcall : op.exec.run s = .error f s') (hfits : ¬ Overrun f) : Reachable capacity h s'
  | restart {s s' : LocalFileStorageProvider} (hs : Reachable capacity h s)
      (hshort : s.metadata.Short) (hrestart : Restart s s') : Reachable capacity h s'

theorem Reachable.intact {capacity : Nat} {hcap : capacity < 2 ^ 32} {s : LocalFileStorageProvider}
    (h : Reachable capacity hcap s) : ∃ F lost, Intact s F lost := by
  induction h with
  | opened hopen => exact ⟨[], [], (sound_new hopen).1.intact (synced_nil _)⟩
  | returned _ hcall ih =>
    obtain ⟨F, lost, hintact⟩ := ih
    exact (hintact.exec _).of_ok hcall
  | threw _ hcall hfits ih =>
    obtain ⟨F, lost, hintact⟩ := ih
    exact ((hintact.exec _).of_error hcall).resolve_left hfits
  | restart _ hshort hrestart ih =>
    obtain ⟨F, lost, hintact⟩ := ih
    exact hintact.restart hshort hrestart

/-! ## What a commit has to do -/

/-- The staged versions of the transaction are there once more under the commit sequence number, and
nothing else has changed. -/
structure Promotes (txn seq : UInt64) (before after : List LeafEntry) : Prop where
  kept : ∃ added, after.Perm (before ++ added) ∧
    ∀ e ∈ added, ∃ e₀ ∈ before, stagedBy txn e₀ = true ∧ e = { e₀ with commitSeq := seq }
  written : ∀ e₀ ∈ before, stagedBy txn e₀ = true →
    ∃ e ∈ after, (e.key = e₀.key ∨ e.key.operatorEq e₀.key = true) ∧ e.commitSeq = seq ∧ e.txnId = txn

theorem stagedBy_iff {txn : UInt64} {e : LeafEntry} :
    stagedBy txn e = true ↔ e.commitSeq = 0 ∧ e.txnId = txn := by
  rw [stagedBy, Bool.and_eq_true, beq_iff_eq, beq_iff_eq]

theorem mem_promoted {txn seq : UInt64} {es : List LeafEntry} {e : LeafEntry} :
    e ∈ promoted txn seq es ↔ ∃ e₀ ∈ es, stagedBy txn e₀ = true ∧ e = { e₀ with commitSeq := seq } := by
  simp only [promoted, List.mem_map, List.mem_filter, and_assoc]
  refine exists_congr fun e₀ => and_congr_right fun _ => and_congr_right fun hstaged => ?_
  obtain ⟨-, rfl⟩ := stagedBy_iff.1 hstaged
  exact eq_comm

theorem TakenAll.promotes {txn seq : UInt64} {before after : List LeafEntry}
    (h : TakenAll (promoted txn seq before) before after) : Promotes txn seq before after := by
  obtain ⟨added, hperm, hsub⟩ := h.exists_added
  refine ⟨⟨added, hperm, fun e he => mem_promoted.1 (hsub he)⟩, fun e₀ he₀ hstaged => ?_⟩
  obtain ⟨-, htxn⟩ := stagedBy_iff.1 hstaged
  obtain ⟨x, hx, hpos⟩ := h.exists_at_position (mem_promoted.2 ⟨e₀, he₀, hstaged, rfl⟩)
  rcases hpos with rfl | ⟨hkey, hseq, htxn'⟩
  · exact ⟨_, hx, Or.inl rfl, rfl, htxn⟩
  · exact ⟨x, hx, Or.inr hkey, hseq, htxn'.trans htxn⟩

/-! ## Commits of a provider -/

/-- `scanAll` of the tree of a table. -/
def LocalFileStorageProvider.scanAll (s : LocalFileStorageProvider) (table : Bytes) :
    Except Fault (List LeafEntry) :=
  match s.btrees.find table with
  | none => .ok []
  | some none => .error .outOfBounds
  | some (some root) => BTree.scanAll ⟨s.pager, root⟩

namespace Intact

variable {s s' : LocalFileStorageProvider} {F F' : List TableTree} {lost : List PageId} {table : Bytes}

theorem scanAll_of_not_mem (h : Intact s F lost) (hnot : table ∉ F.map TableTree.name) :
    s.scanAll table = .ok [] := by
  rw [LocalFileStorageProvider.scanAll, h.named.find_eq_none_iff.2 hnot]

theorem scanAll_of_mem (h : Intact s F lost) {f : TableTree} (hf : f ∈ F) :
    s.scanAll f.name = .ok f.layout.scanAll := by
  obtain ⟨A, B, rfl⟩ := List.append_of_mem hf
  rw [LocalFileStorageProvider.scanAll, h.named.find_tree]
  exact (h.trees.tree onPages_linked).scanAll_eq

end Intact

theorem promotes_nil (txn seq : UInt64) : Promotes txn seq [] [] := by
  have hcalls : TakenAll (promoted txn seq []) [] [] := .nil []
  exact hcalls.promotes

/-- The tree of a table after a commit, if there is one. -/
theorem exists_gained {txn seq : UInt64} {F F' : List TableTree}
    (h : List.Forall₂ (Gained txn seq) F F') (table : Bytes) :
    (∃ f ∈ F, ∃ f' ∈ F', f.name = table ∧ Gained txn seq f f') ∨
      (table ∉ F.map TableTree.name ∧ table ∉ F'.map TableTree.name) := by
  induction h with
  | nil => exact Or.inr ⟨List.not_mem_nil, List.not_mem_nil⟩
  | @cons f f' F F' hf _ ih =>
    by_cases hname : f.name = table
    · exact Or.inl ⟨f, List.mem_cons_self, f', List.mem_cons_self, hname, hf⟩
    rcases ih with ⟨g, hg, g', hg', hgained⟩ | ⟨hnot, hnot'⟩
    · exact Or.inl ⟨g, List.mem_cons_of_mem _ hg, g', List.mem_cons_of_mem _ hg', hgained⟩
    · refine Or.inr ⟨?_, ?_⟩
      · rw [List.map_cons, List.mem_cons, not_or]
        exact ⟨Ne.symm hname, hnot⟩
      · rw [List.map_cons, List.mem_cons, not_or, hf.name]
        exact ⟨Ne.symm hname, hnot'⟩

/-- A commit that returns promotes the staged versions of the transaction in every table. -/
theorem commit_promotes {capacity : Nat} {hcap : capacity < 2 ^ 32} {s s' : LocalFileStorageProvider}
    {txn seq : UInt64} {r : DbError} (hs : Reachable capacity hcap s)
    (hrun : (commit txn seq).run s = .ok r s') (table : Bytes) :
    ∃ before after, s.scanAll table = .ok before ∧ s'.scanAll table = .ok after ∧
      Promotes txn seq before after := by
  obtain ⟨F, lost, hintact⟩ := hs.intact
  obtain ⟨F', hgained, hintact'⟩ := (hintact.commit txn seq).of_ok hrun
  rcases exists_gained hgained table with ⟨f, hf, f', hf', rfl, hname, htaken⟩ | ⟨hnot, hnot'⟩
  · refine ⟨_, _, hintact.scanAll_of_mem hf, ?_, htaken.promotes⟩
    rw [← hname]
    exact hintact'.scanAll_of_mem hf'
  · exact ⟨[], [], hintact.scanAll_of_not_mem hnot, hintact'.scanAll_of_not_mem hnot',
      promotes_nil _ _⟩

/-! ## A commit of one row -/

/-- One row is staged in a new table and then committed. -/
theorem exists_commit_first_row : ∃ s s' before, Reachable 16 (by decide) s ∧
    (commit 1 1).run s = .ok .sentinel s' ∧ s.scanAll (ascii "t") = .ok before ∧
    before ≠ [] := by
  obtain ⟨s₀, s₁, root, hopen, hcreate, htable₁, -⟩ := exists_leafTable
  have hs₁ : Reachable 16 (by decide) s₁ := (Reachable.opened hopen).returned
    (show (Op.createTable (emptySchema (ascii "t"))).exec.run s₀ = .ok .sentinel s₁ from hcreate)
  obtain ⟨s₂, hput, htable₂, -⟩ := htable₁.put rfl (show LeafTakes [] [row 7 0 1 false] by decide)
  have hs₂ := hs₁.returned
    (show (Op.put 1 (ascii "t") (.int64 7) Tuple.empty).exec.run s₁ = .ok .sentinel s₂ from hput)
  obtain ⟨s', hcommit, -⟩ := htable₂.commit
    (show LeafTakes [row 7 0 1 false] (promoted 1 1 [row 7 0 1 false]) by decide)
  refine ⟨s₂, s', [row 7 0 1 false], hs₂, hcommit, ?_, List.cons_ne_nil _ _⟩
  have hfind : s₂.btrees.find (ascii "t") = some (some root) := htable₂.find
  rw [LocalFileStorageProvider.scanAll, hfind]
  exact htable₂.scanAll_eq

/-- That commit promotes the row. -/
theorem commit_promotes_first_row : ∃ s s' before after, Reachable 16 (by decide) s ∧
    (commit 1 1).run s = .ok .sentinel s' ∧ s.scanAll (ascii "t") = .ok before ∧ before ≠ [] ∧
    s'.scanAll (ascii "t") = .ok after ∧ Promotes 1 1 before after := by
  obtain ⟨s, s', before, hs, hcommit, hbefore, hne⟩ := exists_commit_first_row
  obtain ⟨before', after, hbefore', hafter, hpromotes⟩ := commit_promotes hs hcommit (ascii "t")
  rw [hbefore] at hbefore'
  cases hbefore'
  exact ⟨s, s', before, after, hs, hcommit, hbefore, hne, hafter, hpromotes⟩

end OpenDB
