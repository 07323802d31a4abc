import OpenDB.Storage.KeyCounter
import OpenDB.Storage.Promotion

/-!
# Assigned keys are fresh

The counter of a table of the file-backed provider is in its registry, and the keys are in the entries of
its tree. `SpacedProvider` says of an intact provider that no entry has a key that the counter of its table
has yet to give out, but for watched ones. Calls that return or throw and restarts keep it, as long as the
keys that callers choose are apart from those numbers or watched.

So a key that is assigned can only meet one that a caller has chosen (`assigned_keys_fresh`, which says the
same of the in-memory engine), and none at all if no caller chooses a number before the counter does.
-/

set_option autoImplicit false

namespace OpenDB

open OpenDB.Library

open LocalFileStorageProvider

/-! ## Tables and their counters -/

/-- No entry of a table has a key that the counter of the table has yet to give out, unless it is
watched. -/
def SpacedTables (watched : Value → Prop) (tables : AssocMap Bytes TableInfo) (F : List TableTree) :
    Prop :=
  ∀ f ∈ F, ∀ info, tables.find f.name = some info →
    ∀ e ∈ f.layout.scanAll, Apart watched info.autoId e.key

namespace SpacedTables

variable {watched : Value → Prop} {tables : AssocMap Bytes TableInfo} {F A B : List TableTree} {f : TableTree} {name : Bytes}
  {info : TableInfo}

/-- Registering something about a table. -/
theorem assign (h : SpacedTables watched tables F)
    (hinfo : ∀ f ∈ F, f.name = name → ∀ e ∈ f.layout.scanAll, Apart watched info.autoId e.key) :
    SpacedTables watched (tables.assign name info) F := by
  intro f hf info' hfind
  by_cases hname : f.name = name
  · rw [hname, AssocMap.find_assign_self] at hfind
    cases hfind
    exact hinfo f hf hname
  · rw [AssocMap.find_assign_of_ne _ _ hname] at hfind
    exact h f hf info' hfind

/-- One tree has other entries. -/
theorem move (h : SpacedTables watched tables (A ++ f :: B)) {root : PageId} {L : Layout}
    (hL : ∀ info, tables.find f.name = some info → ∀ e ∈ L.scanAll, Apart watched info.autoId e.key) :
    SpacedTables watched tables (A ++ ⟨f.name, root, L⟩ :: B) := by
  intro g hg info hfind
  rw [List.mem_append, List.mem_cons] at hg
  rcases hg with hg | rfl | hg
  · exact h g (by simp [hg]) info hfind
  · exact hL info hfind
  · exact h g (by simp [hg]) info hfind

theorem erase (h : SpacedTables watched tables (A ++ f :: B)) (name : Bytes) :
    SpacedTables watched (tables.erase name) (A ++ B) := by
  intro g hg info hfind
  have hmem : g ∈ A ++ f :: B := by
    rw [List.mem_append, List.mem_cons]
    exact (List.mem_append.1 hg).imp_right Or.inr
  by_cases hname : g.name = name
  · rw [hname, AssocMap.find_erase_self] at hfind
    cases hfind
  · rw [AssocMap.find_erase_of_ne _ hname] at hfind
    exact h g hmem info hfind

/-- A tree joins. -/
theorem insert (h : SpacedTables watched tables F) (hnot : f.name ∉ F.map TableTree.name)
    (hf : ∀ e ∈ f.layout.scanAll, Apart watched info.autoId e.key) :
    SpacedTables watched (tables.assign f.name info) (F ++ [f]) := by
  intro g hg info' hfind
  rcases List.mem_append.1 hg with hg | hg
  · have hne : g.name ≠ f.name := by
      intro heq
      exact hnot (heq ▸ List.mem_map_of_mem hg)
    rw [AssocMap.find_assign_of_ne _ _ hne] at hfind
    exact h g hg info' hfind
  · cases List.mem_singleton.1 hg
    rw [AssocMap.find_assign_self] at hfind
    cases hfind
    exact hf

/-- The registry that is read back has the counters that were saved. -/
theorem persisted {m : Metadata} (h : SpacedTables watched m.tables F) {F' : List TableTree}
    (hsame : List.Forall₂ SameTable F F') : SpacedTables watched m.persisted.tables F' := by
  induction hsame with
  | nil => exact fun f hf => absurd hf List.not_mem_nil
  | @cons f f' F F' hf _ ih =>
    intro g hg info hfind
    rcases List.mem_cons.1 hg with rfl | hg
    · rw [Metadata.find_persisted, Option.map_eq_some_iff] at hfind
      obtain ⟨info₀, hfind₀, rfl⟩ := hfind
      rw [hf.1] at hfind₀
      rw [hf.2]
      exact h f List.mem_cons_self info₀ hfind₀
    · exact ih (fun f hf => h f (List.mem_cons_of_mem _ hf)) g hg info hfind

end SpacedTables

/-! ## Operations -/

namespace LocalFileStorageProvider

/-- The key that a write names, if it names one. -/
def chosenKey : Op → Option Value
  | .put _ _ key _ => if key.isNull then none else some key
  | .remove _ _ key => some key
  | _ => none

/-- The key of an operation is apart from what the counter of its table has yet to give out. -/
def KeysApart (watched : Value → Prop) (s : LocalFileStorageProvider) : Op → Prop
  | .put _ table key _ => ∀ info, s.tables.find table = some info → KeyApart watched info.autoId key
  | .remove _ table key => ∀ info, s.tables.find table = some info → Apart watched info.autoId key
  | _ => True

/-- A key is assigned only while doubles tell the numbers of the counter apart. -/
def CountsExactly (s : LocalFileStorageProvider) : Op → Prop
  | .put _ table key _ => key.isNull = true →
      ∀ info, s.tables.find table = some info → info.autoId.toNat < 2 ^ 53
  | _ => True

/-- A null key is replaced by one that compares different from every key of the table that has a staged
or visible version. -/
def AssignsFresh (s : LocalFileStorageProvider) : Op → Prop
  | .put _ table key row => key.isNull = true → ∀ kr s', (effectiveRow table key row).run s = .ok kr s' →
      ∃ es, s.scanAll table = .ok es ∧ ∀ e ∈ es, (e.commitSeq = 0 ∨ e.commitSeq ≤ s.visibleSeq) →
        e.key.compare kr.1 ≠ .eq
  | _ => True

/-- The number that replaces a null key is none of the watched keys of the table that have a staged or
visible version. -/
def WatchedApart (watched : Value → Prop) (s : LocalFileStorageProvider) : Op → Prop
  | .put _ table key row => key.isNull = true → ∀ kr s', (effectiveRow table key row).run s = .ok kr s' →
      ∀ es, s.scanAll table = .ok es → ∀ e ∈ es, watched e.key →
        (e.commitSeq = 0 ∨ e.commitSeq ≤ s.visibleSeq) → e.key.compare kr.1 ≠ .eq
  | _ => True

/-- With all chosen keys watched it is only the counters that matter. -/
theorem keysApart_of_chosen {watched : Value → Prop} {s : LocalFileStorageProvider} {op : Op}
    (hcounts : s.CountsExactly op) (hchosen : ∀ key, chosenKey op = some key → watched key) :
    s.KeysApart watched op := by
  cases op with
  | put txn table key row =>
    refine fun info hfind => ⟨fun hnull => hcounts hnull info hfind, ?_⟩
    cases hnull : key.isNull with
    | false => exact Or.inl (hchosen key (by rw [chosenKey, hnull]; rfl))
    | true => exact Or.inr (unissued_of_isNull hnull)
  | remove txn table key => exact fun _ _ => Or.inl (hchosen key rfl)
  | createTable | dropTable | alterTable | prepare | commit | commitNext | abort => trivial

theorem key_of_effectiveRow {s s' : LocalFileStorageProvider} {table : Bytes} {key : Value} {row : Tuple}
    {kr : Value × Tuple} (hnull : key.isNull = true)
    (hrun : (effectiveRow table key row).run s = .ok kr s') :
    kr.1 = nextKey (s.tableInfo table).autoId := by
  rw [effectiveRow, if_pos hnull] at hrun
  cases hrun
  rfl

end LocalFileStorageProvider

/-! ## Providers -/

/-- The provider is intact, and the keys of its tables are apart from what its counters have yet to give
out. -/
structure SpacedProvider (watched : Value → Prop) (s : LocalFileStorageProvider) (F : List TableTree)
    (lost : List PageId) : Prop where
  intact : Intact s F lost
  spaced : SpacedTables watched s.tables F

/-- What an operation leaves behind when it faults. -/
def StaysSpaced (watched : Value → Prop) (f : Fault) (s : LocalFileStorageProvider) : Prop :=
  Overrun f ∨ ∃ F lost, SpacedProvider watched s F lost

namespace SpacedProvider

variable {watched : Value → Prop} {s s' : LocalFileStorageProvider} {F A B : List TableTree} {f : TableTree}
  {lost : List PageId} {table : Bytes}

theorem stays (h : SpacedProvider watched s F lost) (fault : Fault) : (StaysSpaced watched) fault s :=
  Or.inr ⟨F, lost, h⟩

theorem saved (h : SpacedProvider watched s F lost) : SpacedProvider watched s.saved F lost :=
  ⟨h.intact.saved, h.spaced⟩

theorem saveMetadata (h : SpacedProvider watched s F lost) :
    EndsIn LocalFileStorageProvider.saveMetadata s (fun _ s' => s' = s.saved) (StaysSpaced watched) := by
  have hid := h.intact.page_one
  rw [← h.intact.metaPage] at hid
  rcases saveMetadata_cases hid.1 hid.2 with ⟨-, hsave⟩ | ⟨-, e, hsave⟩
  · exact .of_run_ok hsave rfl
  · exact .of_run_error hsave (h.stays e)

/-- An operation ends by saving the metadata. -/
theorem thenSave (h : SpacedProvider watched s F lost) (r : DbError) :
    EndsIn (do LocalFileStorageProvider.saveMetadata; return r) s
      (fun _ s' => ∃ F' lost', SpacedProvider watched s' F' lost') (StaysSpaced watched) := by
  refine h.saveMetadata.bind ?_
  rintro _ s' rfl
  exact .pure ⟨F, lost, h.saved⟩

/-- The counter of a table that has a tree. -/
theorem exists_info (h : SpacedProvider watched s F lost) {f : TableTree} (hf : f ∈ F) :
    ∃ info, s.tables.find f.name = some info ∧ s.tableInfo f.name = info ∧
      ∀ e ∈ f.layout.scanAll, Apart watched info.autoId e.key := by
  obtain ⟨info, hfind, -⟩ := h.intact.recorded f hf
  refine ⟨info, hfind, ?_, h.spaced f hf info hfind⟩
  rw [tableInfo, hfind]
  rfl

/-- Another entry of the registry for a table whose counter does not go back. -/
theorem assignTable (h : SpacedProvider watched s (A ++ f :: B) lost) {info : TableInfo}
    (hroot : info.rootPageId = f.root ∨ info.rootPageId = f.layout.leaves.first 0)
    (hle : (s.tableInfo f.name).autoId.toNat ≤ info.autoId.toNat) :
    SpacedProvider watched { s with tables := s.tables.assign f.name info } (A ++ f :: B) lost := by
  refine ⟨h.intact.assignTable hroot, h.spaced.assign fun g hg hname e he => ?_⟩
  obtain ⟨info', -, hinfo, hentries⟩ := h.exists_info hg
  rw [← hname, hinfo] at hle
  exact (hentries e he).mono hle

theorem recordRoot (h : SpacedProvider watched s (A ++ f :: B) lost) :
    SpacedProvider watched (s.recordRoot f.name f.root) (A ++ f :: B) lost :=
  h.assignTable (Or.inl rfl) le_rfl

/-- A call on the tree of a table, whose entries are unissued. -/
theorem onTree {α : Type} {x : EStateM Fault BTree α} {es : List LeafEntry}
    (h : SpacedProvider watched s (A ++ f :: B) lost)
    (hx : ∀ {others}, Linked ⟨s.pager, f.root⟩ f.layout others →
      EndsIn x ⟨s.pager, f.root⟩
        (fun _ t' => ∃ L', L'.scanAll ⊆ f.layout.scanAll ++ es ∧
          Relinked ⟨s.pager, f.root⟩ f.layout others t' L' [])
        (SalvagedAmong es ⟨s.pager, f.root⟩ f.layout others))
    (hes : ∀ e ∈ es, Apart watched (s.tableInfo f.name).autoId e.key) :
    EndsIn (LocalFileStorageProvider.onTree f.name x) s
      (fun _ s' => ∃ root L', SpacedProvider watched s' (A ++ ⟨f.name, root, L'⟩ :: B) lost)
      (StaysSpaced watched) := by
  obtain ⟨info, hfind, hinfo, hentries⟩ := h.exists_info (f := f) (by simp)
  rw [hinfo] at hes
  have hmoved : ∀ {s' : LocalFileStorageProvider} {root : PageId} {L' : Layout} {lost' : List PageId},
      L'.scanAll ⊆ f.layout.scanAll ++ es → Intact s' (A ++ ⟨f.name, root, L'⟩ :: B) lost' →
      s'.tables = s.tables → SpacedProvider watched s' (A ++ ⟨f.name, root, L'⟩ :: B) lost' := by
    intro s' root L' lost' hamong hintact htables
    refine ⟨hintact, ?_⟩
    rw [htables]
    apply h.spaced.move
    intro info' hfind' e he
    rw [hfind] at hfind'
    cases hfind'
    rcases List.mem_append.1 (hamong he) with he | he
    · exact hentries e he
    · exact hes e he
  refine (h.intact.onTree_cases hx).mono ?_ ?_
  · rintro _ s' ⟨root, L', hamong, hintact, htables⟩
    exact ⟨root, L', hmoved hamong hintact htables⟩
  · rintro e s' (hover | ⟨root, L', lost', hamong, hintact, htables⟩)
    · exact Or.inl hover
    · exact (hmoved hamong hintact htables).stays e

/-! ## Rows -/

/-- The key that is stored is one that the counter does not give out any more. -/
theorem effectiveRow (h : SpacedProvider watched s (A ++ f :: B) lost) {key : Value} (row : Tuple)
    (hkey : KeyApart watched (s.tableInfo f.name).autoId key) :
    EndsIn (LocalFileStorageProvider.effectiveRow f.name key row) s
      (fun kr s' => SpacedProvider watched s' (A ++ f :: B) lost ∧
        Apart watched (s'.tableInfo f.name).autoId kr.1) (StaysSpaced watched) := by
  unfold LocalFileStorageProvider.effectiveRow
  split_ifs with hnull
  · have hn := hkey.assigned hnull
    obtain ⟨info, hfind, hroot⟩ := h.intact.recorded f (by simp)
    have hinfo : s.tableInfo f.name = info := by
      rw [tableInfo, hfind]
      rfl
    refine .get_bind (.set_bind (.pure ⟨h.assignTable ?_ ?_, ?_⟩))
    · rw [hinfo]
      exact hroot
    · show _ ≤ ((s.tableInfo f.name).autoId + 1).toNat
      rw [toNat_next hn]
      exact Nat.le_succ _
    · rw [tableInfo, AssocMap.find_assign_self]
      exact Or.inr (unissued_nextKey hn)
  · exact .pure ⟨h, hkey.chosen⟩

/-- A version is staged. -/
theorem stage (h : SpacedProvider watched s (A ++ f :: B) lost) {e : LeafEntry}
    (he : Apart watched (s.tableInfo f.name).autoId e.key) :
    EndsIn (LocalFileStorageProvider.onTree f.name (BTree.put e)) s
      (fun _ s' => ∃ root L', SpacedProvider watched s' (A ++ ⟨f.name, root, L'⟩ :: B) lost)
      (StaysSpaced watched) := by
  apply h.onTree
  · intro others hlinked
    refine (hlinked.put_among e).imp ?_
    rintro _ t' ⟨L', htaken, hstep⟩
    exact ⟨L', htaken.among, hstep⟩
  · intro x hx
    rw [List.mem_singleton.1 hx]
    exact he

theorem put (h : SpacedProvider watched s F lost) (txn : UInt64) {table : Bytes} {key : Value} (row : Tuple)
    (hkey : ∀ info, s.tables.find table = some info → KeyApart watched info.autoId key) :
    EndsIn (LocalFileStorageProvider.put txn table key row) s
      (fun _ s' => ∃ F' lost', SpacedProvider watched s' F' lost') (StaysSpaced watched) := by
  unfold LocalFileStorageProvider.put
  apply EndsIn.get_bind
  split_ifs with hnone
  · exact .pure ⟨F, lost, h⟩
  obtain ⟨r, hfind⟩ := Option.ne_none_iff_exists'.1 (by simpa using hnone : s.btrees.find table ≠ none)
  obtain ⟨A, f, B, rfl, rfl, -⟩ := h.intact.named.exists_tree hfind
  obtain ⟨info, hinfo, rfl, -⟩ := h.exists_info (f := f) (by simp)
  refine (h.effectiveRow row (hkey _ hinfo)).bind ?_
  rintro ⟨key', row'⟩ s₁ ⟨h₁, hkey'⟩
  refine (h₁.stage (e := ⟨key', 0, txn, false, row'⟩) hkey').bind ?_
  rintro b s₂ ⟨root, L', h₂⟩
  refine h₂.intact.syncRoot.bind ?_
  rintro _ s₃ rfl
  exact .pure ⟨_, lost, h₂.recordRoot⟩

theorem remove (h : SpacedProvider watched s F lost) (txn : UInt64) {table : Bytes} {key : Value}
    (hkey : ∀ info, s.tables.find table = some info → Apart watched info.autoId key) :
    EndsIn (LocalFileStorageProvider.remove txn table key) s
      (fun _ s' => ∃ F' lost', SpacedProvider watched s' F' lost') (StaysSpaced watched) := by
  unfold LocalFileStorageProvider.remove
  apply EndsIn.get_bind
  split_ifs with hnone
  · exact .pure ⟨F, lost, h⟩
  obtain ⟨r, hfind⟩ := Option.ne_none_iff_exists'.1 (by simpa using hnone : s.btrees.find table ≠ none)
  obtain ⟨A, f, B, rfl, rfl, -⟩ := h.intact.named.exists_tree hfind
  obtain ⟨info, hinfo, rfl, -⟩ := h.exists_info (f := f) (by simp)
  refine (h.stage (e := ⟨key, 0, txn, true, Tuple.empty⟩) (hkey _ hinfo)).bind ?_
  rintro b s₁ ⟨root, L', h₁⟩
  exact .pure ⟨_, lost, h₁⟩

/-! ## Tables -/

theorem createTable (h : SpacedProvider watched s F lost) (schema : Schema) :
    EndsIn (LocalFileStorageProvider.createTable schema) s
      (fun _ s' => ∃ F' lost', SpacedProvider watched s' F' lost') (StaysSpaced watched) := by
  refine h.intact.createTable_cases schema (fun _ _ => ⟨F, lost, h⟩) h.stays ?_
  rintro p root s₁ hs₁ hintact
  have hnot : schema.table ∉ F.map TableTree.name := by
    have hnodup := hintact.named.nodup_names
    rw [List.map_append, List.nodup_append] at hnodup
    intro hmem
    exact hnodup.2.2 _ hmem schema.table List.mem_cons_self rfl
  have hspaced : SpacedTables watched s₁.tables (F ++ [TableTree.blank schema.table root]) := by
    rw [hs₁]
    apply SpacedTables.insert (f := TableTree.blank schema.table root) h.spaced hnot
    exact fun e he => absurd he List.not_mem_nil
  exact thenSave ⟨hintact, hspaced⟩ _

theorem dropTable (h : SpacedProvider watched s F lost) (name : Bytes) :
    EndsIn (LocalFileStorageProvider.dropTable name) s
      (fun _ s' => ∃ F' lost', SpacedProvider watched s' F' lost') (StaysSpaced watched) := by
  refine h.intact.dropTable_cases name (fun _ => ⟨F, lost, h⟩) ?_
  rintro A f B p btrees lost' s₁ hs₁ rfl - hintact
  have hspaced : SpacedTables watched s₁.tables (A ++ B) := by
    rw [hs₁]
    exact h.spaced.erase name
  exact thenSave ⟨hintact, hspaced⟩ _

/-- The counter goes along with the rows. -/
theorem renameTable (h : SpacedProvider watched s F lost) (name newName : Bytes) :
    EndsIn (LocalFileStorageProvider.alterTable name (.renameTable newName)) s
      (fun _ s' => ∃ F' lost', SpacedProvider watched s' F' lost') (StaysSpaced watched) := by
  refine h.intact.renameTable_cases name newName (fun _ _ => ⟨F, lost, h⟩) ?_
  rintro A f B info btrees s₁ hs₁ rfl rfl hnew hfind hintact
  have hnot : newName ∉ (A ++ B).map TableTree.name := by
    intro hmem
    apply hnew
    rw [List.map_append, List.mem_append] at hmem
    rw [List.map_append, List.map_cons, List.mem_append, List.mem_cons]
    exact hmem.imp_right Or.inr
  have hspaced : SpacedTables watched s₁.tables (A ++ B ++ [{ f with name := newName }]) := by
    rw [hs₁]
    apply SpacedTables.insert (f := { f with name := newName }) (h.spaced.erase f.name) hnot
    exact h.spaced f (by simp) info hfind
  exact thenSave ⟨hintact, hspaced⟩ _

theorem alterColumns (h : SpacedProvider watched s F lost) (name : Bytes) (spec : AlterSpec)
    (hspec : ∀ newName, spec ≠ .renameTable newName) :
    EndsIn (LocalFileStorageProvider.alterTable name spec) s
      (fun _ s' => ∃ F' lost', SpacedProvider watched s' F' lost') (StaysSpaced watched) := by
  refine h.intact.alterColumns_cases name spec hspec (fun _ => ⟨F, lost, h⟩) ?_
  rintro info altered s₁ hs₁ hfind hid hintact
  have hspaced : SpacedTables watched s₁.tables F := by
    rw [hs₁]
    apply h.spaced.assign
    rintro f hf rfl
    rw [hid]
    exact h.spaced f hf info hfind
  exact thenSave ⟨hintact, hspaced⟩ _

theorem alterTable (h : SpacedProvider watched s F lost) (name : Bytes) (spec : AlterSpec) :
    EndsIn (LocalFileStorageProvider.alterTable name spec) s
      (fun _ s' => ∃ F' lost', SpacedProvider watched s' F' lost') (StaysSpaced watched) := by
  cases spec with
  | renameTable newName => exact h.renameTable name newName
  | addColumn columnDef => exact h.alterColumns name _ fun _ => nofun
  | dropColumn column => exact h.alterColumns name _ fun _ => nofun

/-! ## Commits -/

/-- The versions that a commit writes have the keys of those that were staged. -/
theorem promote (h : SpacedProvider watched s (A ++ f :: B) lost) (txn seq : UInt64) :
    EndsIn (LocalFileStorageProvider.onTree f.name (LocalFileStorageProvider.promote txn seq)) s
      (fun _ s' => ∃ root L', SpacedProvider watched s' (A ++ ⟨f.name, root, L'⟩ :: B) lost)
      (StaysSpaced watched) := by
  obtain ⟨info, -, hinfo, hentries⟩ := h.exists_info (f := f) (by simp)
  apply h.onTree
  · intro others hlinked
    refine (hlinked.promote_among txn seq).imp ?_
    rintro _ t' ⟨L', htaken, hstep⟩
    exact ⟨L', htaken.among, hstep⟩
  · intro e he
    obtain ⟨e₀, he₀, -, rfl⟩ := mem_promoted.1 he
    rw [hinfo]
    exact hentries e₀ he₀

/-- The loop of `commit`: the trees of `A` have had their turn. -/
theorem promoteAll (h : SpacedProvider watched s (A ++ B) lost) (txn seq : UInt64) :
    EndsIn (LocalFileStorageProvider.promoteAll txn seq (B.map TableTree.name)) s
      (fun _ s' => ∃ B', SpacedProvider watched s' (A ++ B') lost) (StaysSpaced watched) := by
  induction B generalizing s A with
  | nil => exact .pure ⟨[], h⟩
  | cons f B ih =>
    rw [List.map_cons, LocalFileStorageProvider.promoteAll]
    refine (h.promote txn seq).bind ?_
    rintro _ s₁ ⟨root, L', h₁⟩
    refine h₁.intact.syncRoot.bind ?_
    rintro _ s₂ rfl
    have h₂ := h₁.recordRoot
    rw [List.append_cons] at h₂
    refine (ih h₂).imp ?_
    rintro _ s₃ ⟨B', h₃⟩
    rw [← List.append_cons] at h₃
    exact ⟨_, h₃⟩

/-- Neither the sequence numbers nor the pages say anything about counters. -/
theorem of_intact (h : SpacedProvider watched s F lost) (hintact : Intact s' F lost)
    (htables : s'.tables = s.tables) : SpacedProvider watched s' F lost :=
  ⟨hintact, htables ▸ h.spaced⟩

theorem commit (h : SpacedProvider watched s F lost) (txn seq : UInt64) :
    EndsIn (LocalFileStorageProvider.commit txn seq) s
      (fun _ s' => ∃ F' lost', SpacedProvider watched s' F' lost') (StaysSpaced watched) := by
  have hnames : s.btrees.entries.map Prod.fst = F.map TableTree.name := by
    rw [h.intact.named.btrees, List.map_map]
    rfl
  unfold LocalFileStorageProvider.commit
  apply EndsIn.get_bind
  rw [hnames]
  refine (promoteAll (A := []) h txn seq).bind ?_
  rintro _ s₁ ⟨F', h₁⟩
  refine h₁.saveMetadata.bind ?_
  rintro _ s₂ rfl
  have h₂ := h₁.saved.intact
  exact .modify_bind (.pure ⟨F', lost, h₁.saved.of_intact ⟨h₂.opened, h₂.metaPage, h₂.named,
    h₂.recorded, h₂.trees, h₂.version⟩ rfl⟩)

/-! ## Histories -/

/-- An operation whose key is apart keeps the keys apart, whether it returns or throws. -/
theorem exec (h : SpacedProvider watched s F lost) {op : Op} (hkey : s.KeysApart watched op) :
    EndsIn op.exec s (fun _ s' => ∃ F' lost', SpacedProvider watched s' F' lost') (StaysSpaced watched) := by
  cases op with
  | createTable schema => exact h.createTable schema
  | dropTable name => exact h.dropTable name
  | alterTable name spec => exact h.alterTable name spec
  | put txn table key row => exact h.put txn row hkey
  | remove txn table key => exact h.remove txn hkey
  | prepare txn => exact .pure ⟨F, lost, h⟩
  | commit txn seq => exact h.commit txn seq
  | commitNext txn =>
    have h₀ := h.intact
    -- the provider's own counter is advanced before the versions are written
    have hnext : SpacedProvider watched { s with internalSeq := s.internalSeq + 1 } F lost :=
      h.of_intact ⟨h₀.opened, h₀.metaPage, h₀.named, h₀.recorded, h₀.trees, h₀.version⟩ rfl
    exact .get_bind (.modify_bind (hnext.commit txn (s.internalSeq + 1)))
  | abort txn => exact .pure ⟨F, lost, h⟩

/-- The key that it assigns, if it assigns one, is fresh if and only if it is none of the watched ones. -/
theorem assignsFresh_iff (h : SpacedProvider watched s F lost) {op : Op} (hkey : s.KeysApart watched op) :
    s.AssignsFresh op ↔ s.WatchedApart watched op := by
  cases op with
  | put txn table key row =>
    constructor
    · intro hfresh hnull kr s' hrun es hscan e he _
      obtain ⟨es', hscan', hentries⟩ := hfresh hnull kr s' hrun
      rw [hscan] at hscan'
      cases hscan'
      exact hentries e he
    · intro hwatched hnull kr s' hrun
      by_cases hmem : table ∈ F.map TableTree.name
      · obtain ⟨f, hf, rfl⟩ := List.mem_map.1 hmem
        obtain ⟨info, hfind, hinfo, hentries⟩ := h.exists_info hf
        have hscan := h.intact.scanAll_of_mem hf
        refine ⟨_, hscan, fun e he hv => ?_⟩
        rcases hentries e he with he' | he'
        · exact hwatched hnull kr s' hrun _ hscan e he he' hv
        · rw [key_of_effectiveRow hnull hrun, hinfo]
          exact he'.compare_nextKey ((hkey info hfind).assigned hnull)
      · exact ⟨[], h.intact.scanAll_of_not_mem hmem, fun e he => absurd he List.not_mem_nil⟩
  | createTable | dropTable | alterTable | remove | prepare | commit | commitNext | abort => exact Iff.rfl

theorem restart (h : SpacedProvider watched s F lost) (hshort : s.metadata.Short) (hrestart : Restart s s') :
    ∃ F' lost', SpacedProvider watched s' F' lost' := by
  by_cases hmagic : s.pager.header.magic = Pager.magic
  · obtain ⟨-, rfl⟩ := (h.intact.running.restart_iff_kept hshort hmagic).1 hrestart
    obtain ⟨F', lost', hintact, hsame⟩ := h.intact.restarted_same
    exact ⟨F', lost', hintact, SpacedTables.persisted (m := s.metadata) h.spaced hsame⟩
  · have hsound := (h.intact.running.restart_lost hmagic hrestart).1
    exact ⟨[], [], hsound.intact (synced_nil _), fun f hf => absurd hf List.not_mem_nil⟩

end SpacedProvider

/-- The histories of a file, with the providers before the calls: operations return, or throw and no
node has overrun its page, and at any time the provider is closed and the file opened anew. -/
inductive CallHistory (capacity : Nat) (h : capacity < 2 ^ 32) :
    List (LocalFileStorageProvider × Op) → LocalFileStorageProvider → Prop where
  | opened {r : DbError} {s : LocalFileStorageProvider}
      (hopen : (openFile []).run (LocalFileStorageProvider.new capacity h) = .ok r s) :
      CallHistory capacity h [] s
  | returned {calls : List (LocalFileStorageProvider × Op)} {op : Op} {r : DbError}
      {s s' : LocalFileStorageProvider} (hs : CallHistory capacity h calls s)
      (hcall : op.exec.run s = .ok r s') : CallHistory capacity h (calls ++ [(s, op)]) s'
  | threw {calls : List (LocalFileStorageProvider × Op)} {op : Op} {f : Fault}
      {s s' : LocalFileStorageProvider} (hs : CallHistory capacity h calls s)
      (hcall : op.exec.run s = .error f s') (hfits : ¬ Overrun f) :
      CallHistory capacity h (calls ++ [(s, op)]) s'
  | restart {calls : List (LocalFileStorageProvider × Op)} {s s' : LocalFileStorageProvider}
      (hs : CallHistory capacity h calls s) (hshort : s.metadata.Short) (hrestart : Restart s s') :
      CallHistory capacity h calls s'

namespace CallHistory

variable {capacity : Nat} {hcap : capacity < 2 ^ 32} {calls : List (LocalFileStorageProvider × Op)}
  {s : LocalFileStorageProvider}

theorem spaced {watched : Value → Prop} (h : CallHistory capacity hcap calls s)
    (hkeys : ∀ p ∈ calls, p.1.KeysApart watched p.2) :
    (∃ F lost, SpacedProvider watched s F lost) ∧
      ∀ p ∈ calls, (p.1.AssignsFresh p.2 ↔ p.1.WatchedApart watched p.2) := by
  induction h with
  | opened hopen =>
    refine ⟨⟨[], [], (sound_new hopen).1.intact (synced_nil _), ?_⟩, fun p hp => ?_⟩
    · exact fun f hf => absurd hf List.not_mem_nil
    · exact absurd hp List.not_mem_nil
  | returned _ hcall ih =>
    -- the calls before the last, and the last
    rw [List.forall_mem_append, List.forall_mem_singleton] at hkeys ⊢
    obtain ⟨⟨F, lost, hspaced⟩, hfresh⟩ := ih hkeys.1
    exact ⟨(hspaced.exec hkeys.2).of_ok hcall, hfresh, hspaced.assignsFresh_iff hkeys.2⟩
  | threw _ hcall hfits ih =>
    rw [List.forall_mem_append, List.forall_mem_singleton] at hkeys ⊢
    obtain ⟨⟨F, lost, hspaced⟩, hfresh⟩ := ih hkeys.1
    exact ⟨((hspaced.exec hkeys.2).of_error hcall).resolve_left hfits, hfresh,
      hspaced.assignsFresh_iff hkeys.2⟩
  | restart _ hshort hrestart ih =>
    obtain ⟨⟨F, lost, hspaced⟩, hfresh⟩ := ih hkeys
    exact ⟨hspaced.restart hshort hrestart, hfresh⟩

end CallHistory

/-- What assigns keys: the engine that keeps its tables in memory, and the provider of a file. -/
inductive KeyAssigner where
  | inMemory
  | localFile
  deriving DecidableEq

namespace KeyAssigner

def State : KeyAssigner → Type
  | inMemory => InMemoryEngine
  | localFile => LocalFileStorageProvider

def Call : KeyAssigner → Type
  | inMemory => EngineCall
  | localFile => Op

/-- The calls of a history, with the states before them. -/
def History : (k : KeyAssigner) → List (k.State × k.Call) → Prop
  | inMemory, calls => ∃ e, Run InMemoryEngine.next InMemoryEngine.new calls e
  | localFile, calls => ∃ capacity hcap s, CallHistory capacity hcap calls s

/-- The key that a call has written, if it names one itself. -/
def chosenKey : (k : KeyAssigner) → k.Call → Option Value
  | inMemory => InMemoryEngine.chosenKey
  | localFile => LocalFileStorageProvider.chosenKey

def KeysApart (watched : Value → Prop) : (k : KeyAssigner) → k.State → k.Call → Prop
  | inMemory => InMemoryEngine.KeysApart watched
  | localFile => LocalFileStorageProvider.KeysApart watched

def CountsExactly : (k : KeyAssigner) → k.State → k.Call → Prop
  | inMemory => InMemoryEngine.CountsExactly
  | localFile => LocalFileStorageProvider.CountsExactly

def AssignsFresh : (k : KeyAssigner) → k.State → k.Call → Prop
  | inMemory => InMemoryEngine.AssignsFresh
  | localFile => LocalFileStorageProvider.AssignsFresh

def WatchedApart (watched : Value → Prop) : (k : KeyAssigner) → k.State → k.Call → Prop
  | inMemory => InMemoryEngine.WatchedApart watched
  | localFile => LocalFileStorageProvider.WatchedApart watched

/-- The keys that the calls of a history name. -/
def Chosen (k : KeyAssigner) (calls : List (k.State × k.Call)) (key : Value) : Prop :=
  ∃ p ∈ calls, k.chosenKey p.2 = some key

variable {k : KeyAssigner} {calls : List (k.State × k.Call)}

/-- What a history assigns is fresh but for the keys that are watched. -/
theorem assignsFresh_iff {watched : Value → Prop} (h : k.History calls)
    (hkeys : ∀ p ∈ calls, k.KeysApart watched p.1 p.2) :
    ∀ p ∈ calls, (k.AssignsFresh p.1 p.2 ↔ k.WatchedApart watched p.1 p.2) := by
  cases k with
  | inMemory =>
    obtain ⟨e, hrun⟩ := h
    exact InMemoryEngine.assignsFresh_iff hrun hkeys
  | localFile =>
    obtain ⟨capacity, hcap, s, hcalls⟩ := h
    exact (hcalls.spaced hkeys).2

theorem keysApart_of_chosen {watched : Value → Prop} {s : k.State} {c : k.Call}
    (hcounts : k.CountsExactly s c) (hchosen : ∀ key, k.chosenKey c = some key → watched key) :
    k.KeysApart watched s c := by
  cases k with
  | inMemory => exact InMemoryEngine.keysApart_of_chosen hcounts hchosen
  | localFile => exact LocalFileStorageProvider.keysApart_of_chosen hcounts hchosen

/-- With no key watched there is none to meet. -/
theorem watchedApart_none (k : KeyAssigner) (s : k.State) (c : k.Call) :
    k.WatchedApart (fun _ => False) s c := by
  cases k with
  | inMemory =>
    cases c with
    | put txn table key row => exact fun _ _ _ hwatched => hwatched.elim
    | get | remove | scan | commit | commitNext | abort => trivial
  | localFile =>
    cases c with
    | put txn table key row => exact fun _ _ _ _ _ _ _ _ hwatched => hwatched.elim
    | createTable | dropTable | alterTable | remove | prepare | commit | commitNext | abort => trivial

end KeyAssigner

/-- As long as the counters stay where doubles tell their numbers apart, an assigned key is fresh if and
only if it is none of the keys that the calls of the history name. In a history that never names a number
before the counter of the table has given it out, all keys that are assigned are fresh. -/
theorem assigned_keys_fresh (k : KeyAssigner) {calls : List (k.State × k.Call)} (h : k.History calls) :
    ((∀ p ∈ calls, k.CountsExactly p.1 p.2) →
      ∀ p ∈ calls, (k.AssignsFresh p.1 p.2 ↔ k.WatchedApart (k.Chosen calls) p.1 p.2)) ∧
    ((∀ p ∈ calls, k.KeysApart (fun _ => False) p.1 p.2) → ∀ p ∈ calls, k.AssignsFresh p.1 p.2) := by
  constructor
  · intro hcounts
    refine KeyAssigner.assignsFresh_iff h fun p hp => ?_
    exact KeyAssigner.keysApart_of_chosen (hcounts p hp) fun key hkey => ⟨p, hp, hkey⟩
  · intro hkeys p hp
    exact (KeyAssigner.assignsFresh_iff h hkeys p hp).2 (KeyAssigner.watchedApart_none k p.1 p.2)

/-- A put without a key is one with the next number of the counter, which is moved first. -/
theorem run_put_null {s : LocalFileStorageProvider} {txn : UInt64} {table : Bytes} {row : Tuple}
    {r : Option PageId} (hfind : s.btrees.find table = some r) :
    (put txn table .null row).run s =
      (put txn table (nextKey (s.tableInfo table).autoId)
        (row.set (ascii "_id") (nextKey (s.tableInfo table).autoId))).run
        { s with
          tables := s.tables.assign table
            { s.tableInfo table with autoId := (s.tableInfo table).autoId + 1 } } := by
  rw [put, put, EStateM.run_bind, EStateM.run_bind, EStateM.run_get, EStateM.run_get]
  dsimp only
  rw [hfind]
  rfl

/-- The first table of a new file takes a row without a key. -/
theorem exists_put_null : ∃ s₀ s s' : LocalFileStorageProvider,
    CallHistory 16 (by decide)
      [(s₀, .createTable (emptySchema (ascii "t"))), (s, .put 1 (ascii "t") .null Tuple.empty)] s' ∧
      ∃ root, s.tables.entries = [(ascii "t", ⟨emptySchema (ascii "t"), root, 0⟩)] := by
  obtain ⟨s₀, s, root, hopen, hcreate, ⟨hsound, htables, -, -⟩, -⟩ := exists_leafTable
  have hcreated : CallHistory 16 (by decide) [(s₀, .createTable (emptySchema (ascii "t")))] s :=
    (CallHistory.opened hopen).returned
      (show (Op.createTable (emptySchema (ascii "t"))).exec.run s₀ = .ok .sentinel s from hcreate)
  have hfind : s.btrees.find (ascii "t") = some (some root) := Sound.find_tree (A := []) hsound
  have hrep : Rep ⟨s.pager, root⟩ ⟨none, [(root, [])]⟩ _ := Forest.rep (A := []) hsound.forest
  obtain ⟨t, hput, -⟩ := hrep.put_one_leaf (e := ⟨nextKey 0, 0, 1, false,
    Tuple.empty.set (ascii "_id") (nextKey 0)⟩) (by decide)
  have hmoved := @run_put_null s 1 (ascii "t") Tuple.empty _ hfind
  have hinfo : s.tableInfo (ascii "t") = _ := tableInfo_of_entries htables
  rw [hinfo] at hmoved
  have hcall := hmoved.trans (run_put_of_tree rfl hfind hput)
  exact ⟨s₀, s, _, hcreated.returned
    (show (Op.put 1 (ascii "t") .null Tuple.empty).exec.run s = .ok .sentinel _ from hcall),
    root, htables⟩

/-- A row without a key after one whose key a caller has chosen, and the first row of a file. -/
theorem assigned_keys_fresh_first_rows :
    (InMemoryEngine.new.after [.put 1 (ascii "t") (.int64 5) Tuple.empty, .commit 1 1]).AssignsFresh
      (.put 2 (ascii "t") .null Tuple.empty) ∧
    ∃ s : LocalFileStorageProvider, (s.tables.find (ascii "t")).isSome = true ∧
      s.AssignsFresh (.put 1 (ascii "t") .null Tuple.empty) := by
  constructor
  · have hrun : (follow InMemoryEngine.next [.put 1 (ascii "t") (.int64 5) Tuple.empty, .commit 1 1,
        .put 2 (ascii "t") .null Tuple.empty] InMemoryEngine.new).2 = some _ := rfl
    refine ((assigned_keys_fresh .inMemory ⟨_, Run.of_follow hrun⟩).1 ?_
      (_, EngineCall.put 2 (ascii "t") .null Tuple.empty) (.tail _ (.tail _ (.head _)))).2 ?_
    · rintro p (_ | ⟨_, _ | ⟨_, _ | ⟨_, hp⟩⟩⟩)
      · exact fun hnull => by cases hnull
      · trivial
      · exact fun _ => by decide
      · cases hp
    · -- the chosen key is no number that the counter gives out next
      rintro - r hr - -
      have hrow : r = (.int64 5, [⟨1, 1, Tuple.empty, false⟩]) := List.mem_singleton.1 hr
      rw [hrow]
      decide
  · obtain ⟨s₀, s, s', hcalls, root, htables⟩ := exists_put_null
    have hfind := find_of_entries htables
    refine ⟨s, by rw [hfind]; rfl, ?_⟩
    refine (assigned_keys_fresh .localFile ⟨_, _, _, hcalls⟩).2 ?_
      (s, Op.put 1 (ascii "t") .null Tuple.empty) (.tail _ (.head _))
    rintro p (_ | ⟨_, _ | ⟨_, hp⟩⟩)
    · trivial
    · intro info hinfo
      rw [hfind] at hinfo
      cases hinfo
      exact ⟨fun _ => show (0 : UInt64).toNat < 2 ^ 53 by decide, Or.inr (unissued_of_isNull rfl)⟩
    · cases hp

/-- A row whose key is a number that the counter of its table has yet to give out. -/
def chosenFirst : List EngineCall :=
  [.put 1 (ascii "t") (.int64 1) (Tuple.empty.set (ascii "a") (.int64 7)), .commit 1 1]

/-- The counter gives out the key of that row, and the new row is found in its place. -/
theorem assigned_key_is_taken :
    (∃ calls, KeyAssigner.inMemory.History calls ∧
      ¬ ∀ p ∈ calls, KeyAssigner.inMemory.AssignsFresh p.1 p.2) ∧
      InMemory.scan 2 (ascii "t") (InMemoryEngine.new.after chosenFirst).store =
        [Tuple.empty.set (ascii "a") (.int64 7)] ∧
      InMemory.scan 2 (ascii "t") (InMemoryEngine.new.after
          (chosenFirst ++ [.put 2 (ascii "t") .null Tuple.empty])).store =
        [Tuple.empty.set (ascii "_id") (.int64 1)] := by
  refine ⟨?_, by decide, by decide⟩
  have hrun : (follow InMemoryEngine.next (chosenFirst ++ [.put 2 (ascii "t") .null Tuple.empty])
      InMemoryEngine.new).2 = some _ := rfl
  refine ⟨_, ⟨_, Run.of_follow hrun⟩, fun h => ?_⟩
  have hlast : (InMemoryEngine.new.after chosenFirst).AssignsFresh
      (.put 2 (ascii "t") .null Tuple.empty) :=
    h (_, EngineCall.put 2 (ascii "t") .null Tuple.empty) (.tail _ (.tail _ (.head _)))
  exact hlast rfl (.int64 1, [⟨1, 1, Tuple.empty.set (ascii "a") (.int64 7), false⟩]) (by decide)
    (by decide) (by decide)

end OpenDB
