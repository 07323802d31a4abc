import OpenDB.Library.VersionArchive
import OpenDB.Storage.Session
import OpenDB.Storage.VersionRuns

/-!
# A tree as a version archive

The entries of a tidy tree are an archive: every entry is filed under the position of its key, its
commit sequence number and its transaction. A `put` files a version and a commit publishes those that
its transaction has staged (`Ordered.archive_steps`, `foldl_promoted`). Point reads and scans read the
archive with the visible sequence number as the horizon (`Ordered.reads_get`, `Ordered.reads_scan`).
-/

set_option autoImplicit false

namespace OpenDB

open OpenDB.Library

open LocalFileStorageProvider

/-- Positions of keys. Keys that `compare` equal have one position. -/
abbrev KeyRank := ℕ ×ₗ (ℤ ×ₗ List ℕ)

/-- Archives of rows, the writers given by the numbers of their transactions. -/
abbrev RowArchive := VersionArchive ℕ KeyRank Tuple

/-- The row of a version, or nothing for a tombstone. -/
def LeafEntry.outcome (e : LeafEntry) : Option Tuple := if e.tombstone then none else some e.payload

/-- The entry is filed at this place. -/
def LeafEntry.isAt (k : KeyRank) (n t : ℕ) (e : LeafEntry) : Bool :=
  decide (e.key.rank = k ∧ e.commitSeq.toNat = n ∧ e.txnId.toNat = t)

/-- The entries as an archive. -/
def archiveOf (es : List LeafEntry) : RowArchive :=
  ⟨fun k n t => (es.find? (LeafEntry.isAt k n t)).map LeafEntry.outcome⟩

/-- An entry is filed at its own place. -/
def fileEntry (A : RowArchive) (e : LeafEntry) : RowArchive :=
  A.file e.key.rank e.commitSeq.toNat e.txnId.toNat e.outcome

theorem isAt_iff {k : KeyRank} {n t : ℕ} {e : LeafEntry} :
    e.isAt k n t = true ↔ e.key.rank = k ∧ e.commitSeq.toNat = n ∧ e.txnId.toNat = t := by
  rw [LeafEntry.isAt, decide_eq_true_eq]

theorem position_eq_iff {a b : LeafEntry} : a.position = b.position ↔ a.key.rank = b.key.rank ∧
    a.commitSeq.toNat = b.commitSeq.toNat ∧ a.txnId.toNat = b.txnId.toNat := by
  simp only [LeafEntry.position, EmbeddingLike.apply_eq_iff_eq, Prod.mk.injEq]

theorem Versions.nodup_positions {es : List LeafEntry} (h : Versions es) :
    (es.map LeafEntry.position).Nodup := by
  rw [List.Nodup, List.pairwise_map]
  exact h.sorted.imp fun hlt => hlt.ne

/-- Entries of one position are the same entry. -/
theorem Versions.eq_of_position {es : List LeafEntry} (h : Versions es) {a b : LeafEntry}
    (ha : a ∈ es) (hb : b ∈ es) (heq : a.position = b.position) : a = b :=
  List.inj_on_of_nodup_map h.nodup_positions ha hb heq

theorem position_eq_of_isAt {a b : LeafEntry} {k : KeyRank} {n t : ℕ} (ha : a.isAt k n t = true)
    (hb : b.isAt k n t = true) : a.position = b.position := by
  obtain ⟨hk, hn, ht⟩ := isAt_iff.1 ha
  obtain ⟨hk', hn', ht'⟩ := isAt_iff.1 hb
  exact position_eq_iff.2 ⟨hk.trans hk'.symm, hn.trans hn'.symm, ht.trans ht'.symm⟩

theorem entry_archiveOf_ne_none_iff {es : List LeafEntry} {k : KeyRank} {n t : ℕ} :
    (archiveOf es).entry k n t ≠ none ↔ ∃ e ∈ es, e.isAt k n t = true := by
  show (es.find? (LeafEntry.isAt k n t)).map LeafEntry.outcome ≠ none ↔ _
  rw [ne_eq, Option.map_eq_none_iff, List.find?_eq_none]
  simp only [not_forall, not_not, exists_prop]

/-- What is filed at a place is the entry there. -/
theorem Versions.entry_archiveOf {es : List LeafEntry} (h : Versions es) {k : KeyRank} {n t : ℕ}
    {w : Option Tuple} : (archiveOf es).entry k n t = some w ↔
      ∃ e ∈ es, e.isAt k n t = true ∧ e.outcome = w := by
  have hfound : ∀ {e : LeafEntry}, es.find? (LeafEntry.isAt k n t) = some e →
      e ∈ es ∧ e.isAt k n t = true :=
    fun hfind => ⟨List.mem_of_find?_eq_some hfind, List.find?_some hfind⟩
  constructor
  · intro hentry
    obtain ⟨e, hfind, houtcome⟩ := Option.map_eq_some_iff.1 hentry
    exact ⟨e, (hfound hfind).1, (hfound hfind).2, houtcome⟩
  · rintro ⟨e, he, hat, rfl⟩
    obtain ⟨w, hentry⟩ := Option.ne_none_iff_exists'.1
      (entry_archiveOf_ne_none_iff.2 ⟨e, he, hat⟩)
    obtain ⟨x, hfind, houtcome⟩ := Option.map_eq_some_iff.1 hentry
    obtain ⟨hx, hxat⟩ := hfound hfind
    rw [h.eq_of_position he hx (position_eq_of_isAt hat hxat), houtcome]
    exact hentry

/-! ## Writing -/

/-- Storing a version files it. -/
theorem archiveOf_store {es : List LeafEntry} {e : LeafEntry} (h : Versions es)
    (h' : Versions (store es e)) : archiveOf (store es e) = fileEntry (archiveOf es) e := by
  have hself : e.isAt e.key.rank e.commitSeq.toNat e.txnId.toNat = true := isAt_iff.2 ⟨rfl, rfl, rfl⟩
  by_cases hocc : BTree.occupied e es = true
  · rw [store, if_pos hocc]
    obtain ⟨x, hx, hmatch⟩ := List.any_eq_true.1 hocc
    simp only [Bool.and_eq_true, beq_iff_eq] at hmatch
    obtain ⟨⟨hkey, hseq⟩, htxn⟩ := hmatch
    have hat : x.isAt e.key.rank e.commitSeq.toNat e.txnId.toNat = true :=
      isAt_iff.2 ⟨Value.rank_eq_of_operatorEq hkey, congrArg UInt64.toNat hseq,
        congrArg UInt64.toNat htxn⟩
    exact (VersionArchive.file_of_taken (entry_archiveOf_ne_none_iff.2 ⟨x, hx, hat⟩)).symm
  · have hstore : store es e = BTree.insertEntry e es := if_neg hocc
    have hnodup := h'.nodup_positions
    rw [hstore] at h' ⊢
    rw [hstore, ((insertEntry_perm e es).map LeafEntry.position).nodup_iff, List.map_cons,
      List.nodup_cons] at hnodup
    -- the positions differ, so the place of the new version was free
    have hfree : (archiveOf es).entry e.key.rank e.commitSeq.toNat e.txnId.toNat = none := by
      by_contra hne
      obtain ⟨x, hx, hat⟩ := entry_archiveOf_ne_none_iff.1 hne
      apply hnodup.1
      rw [position_eq_of_isAt hself hat]
      exact List.mem_map_of_mem hx
    ext k n t : 4
    by_cases hplace : k = e.key.rank ∧ n = e.commitSeq.toNat ∧ t = e.txnId.toNat
    · obtain ⟨rfl, rfl, rfl⟩ := hplace
      rw [fileEntry, VersionArchive.entry_file_self hfree, h'.entry_archiveOf]
      exact ⟨e, mem_insertEntry.2 (Or.inl rfl), hself, rfl⟩
    · rw [fileEntry, VersionArchive.entry_file_of_ne hplace]
      apply Option.ext
      intro w
      rw [h'.entry_archiveOf, h.entry_archiveOf]
      refine exists_congr fun x => ?_
      rw [mem_insertEntry]
      constructor
      · rintro ⟨rfl | hx, hat, houtcome⟩
        · obtain ⟨hk, hn, ht⟩ := isAt_iff.1 hat
          exact absurd ⟨hk.symm, hn.symm, ht.symm⟩ hplace
        · exact ⟨hx, hat, houtcome⟩
      · rintro ⟨hx, hat, houtcome⟩
        exact ⟨Or.inr hx, hat, houtcome⟩

/-- A run of calls that ends in a tidy tree files its versions one after the other. -/
theorem Ordered.archive_steps {L L' : Layout} {es : List LeafEntry} (h : Ordered L)
    (hsteps : PutSteps es L L') (htidy : L'.Tidy) :
    Ordered L' ∧ archiveOf L'.scanAll = es.foldl fileEntry (archiveOf L.scanAll) := by
  induction hsteps with
  | nil L => exact ⟨h, rfl⟩
  | cons hnodup hput hrest ih =>
    obtain ⟨h₁, hall⟩ := h.step_tidy hnodup hput (hrest.tidy_before htidy)
    obtain ⟨h', harchive⟩ := ih h₁ htidy
    have hversions := h₁.versions
    rw [hall] at hversions
    refine ⟨h', ?_⟩
    rw [harchive, hall, List.foldl_cons, archiveOf_store h.versions hversions]

/-- Versions of one number and one writer, filed one after the other. -/
theorem entry_foldl_fileEntry {es : List LeafEntry} {n t : ℕ}
    (hes : ∀ e ∈ es, e.commitSeq.toNat = n ∧ e.txnId.toNat = t) (A : RowArchive) (l : KeyRank)
    (m u : ℕ) : (es.foldl fileEntry A).entry l m u =
      if m = n ∧ u = t then
        (A.entry l n t).or ((es.find? fun e => decide (e.key.rank = l)).map LeafEntry.outcome)
      else A.entry l m u := by
  induction es generalizing A with
  | nil =>
    rw [List.foldl_nil, List.find?_nil, Option.map_none, Option.or_none]
    split_ifs with hplace
    · rw [hplace.1, hplace.2]
    · rfl
  | cons e es ih =>
    obtain ⟨rfl, rfl⟩ := hes e List.mem_cons_self
    rw [List.foldl_cons, ih fun x hx => hes x (List.mem_cons_of_mem _ hx)]
    split_ifs with hplace
    · rw [List.find?_cons]
      by_cases hkey : e.key.rank = l
      · subst hkey
        rw [decide_eq_true rfl]
        dsimp only
        cases hold : A.entry e.key.rank e.commitSeq.toNat e.txnId.toNat with
        | none =>
          rw [fileEntry, VersionArchive.entry_file_self hold]
          rfl
        | some w =>
          have htaken : A.entry e.key.rank e.commitSeq.toNat e.txnId.toNat ≠ none := by
            rw [hold]
            exact Option.some_ne_none _
          rw [fileEntry, VersionArchive.file_of_taken htaken, hold]
          rfl
      · rw [decide_eq_false hkey, fileEntry,
          VersionArchive.entry_file_of_ne fun h => hkey h.1.symm]
    · rw [fileEntry, VersionArchive.entry_file_of_ne fun h => hplace h.2]

/-- A commit publishes what its transaction has staged. -/
theorem foldl_promoted (txn seq : UInt64) (es : List LeafEntry) :
    (promoted txn seq es).foldl fileEntry (archiveOf es) =
      (archiveOf es).publish txn.toNat seq.toNat := by
  have hone : ∀ e ∈ promoted txn seq es, e.commitSeq.toNat = seq.toNat ∧ e.txnId.toNat = txn.toNat := by
    intro e he
    obtain ⟨e₀, -, rfl⟩ := List.mem_map.1 he
    exact ⟨rfl, rfl⟩
  ext l m u : 4
  rw [entry_foldl_fileEntry hone]
  by_cases hplace : m = seq.toNat ∧ u = txn.toNat
  · obtain ⟨rfl, rfl⟩ := hplace
    rw [if_pos ⟨rfl, rfl⟩, VersionArchive.entry_publish_self]
    congr 1
    rw [promoted, List.find?_map, Option.map_map, List.find?_filter]
    show Option.map LeafEntry.outcome _ = (es.find? (LeafEntry.isAt l 0 txn.toNat)).map LeafEntry.outcome
    congr 2
    funext e
    rw [Bool.eq_iff_iff, isAt_iff, decide_eq_true_eq, stagedBy, Bool.and_eq_true, beq_iff_eq,
      beq_iff_eq, ← UInt64.toNat_inj, ← UInt64.toNat_inj, and_comm]
    exact and_congr_left' decide_eq_true_iff
  · rw [if_neg hplace, VersionArchive.entry_publish_of_ne hplace]

/-! ## Reading -/

theorem visible_iff {txn visibleSeq : UInt64} {e : LeafEntry} :
    BTree.visible txn visibleSeq e = true ↔
      VersionArchive.Visible visibleSeq.toNat txn.toNat e.commitSeq.toNat e.txnId.toNat := by
  have hzero : e.commitSeq = 0 ↔ e.commitSeq.toNat = 0 := UInt64.toNat_inj.symm
  rw [BTree.visible, VersionArchive.Visible]
  simp only [← hzero]
  split_ifs with h
  · rw [beq_iff_eq, UInt64.toNat_inj]
  · rw [decide_eq_true_eq, UInt64.le_iff_toNat_le]

/-- A lookup reads the archive. -/
theorem Versions.reads_lookup {es : List LeafEntry} (h : Versions es) {k : Value}
    (hk : k.isNaN = false) (txn visibleSeq : UInt64) :
    (archiveOf es).Reads visibleSeq.toNat txn.toNat k.rank
      ((BTree.lookup k txn visibleSeq es).bind LeafEntry.outcome) := by
  cases hfound : BTree.lookup k txn visibleSeq es with
  | none =>
    refine Or.inr ⟨rfl, ?_⟩
    intro n t hvisible
    by_contra hne
    obtain ⟨x, hx, hat⟩ := entry_archiveOf_ne_none_iff.1 hne
    obtain ⟨hrank, rfl, rfl⟩ := isAt_iff.1 hat
    have hhidden := (h.lookup_eq_none_iff hk).1 hfound x hx hrank
    rw [visible_iff.2 hvisible] at hhidden
    cases hhidden
  | some e =>
    obtain ⟨he, ⟨hrank, hvisible⟩, hleast⟩ := (h.lookup_eq_some_iff hk).1 hfound
    refine Or.inl ⟨e.commitSeq.toNat, e.txnId.toNat, ?_, visible_iff.1 hvisible, ?_⟩
    · exact h.entry_archiveOf.2 ⟨e, he, isAt_iff.2 ⟨hrank, rfl, rfl⟩, rfl⟩
    · intro m u hvis hne
      obtain ⟨x, hx, hat⟩ := entry_archiveOf_ne_none_iff.1 hne
      obtain ⟨hxrank, rfl, rfl⟩ := isAt_iff.1 hat
      have hle := hleast x hx hxrank (visible_iff.2 hvis)
      rcases hle.lt_or_eq with hlt | heq
      · rcases position_lt_iff.1 hlt with hkey | ⟨-, hseq | ⟨hseq, htxn⟩⟩
        · exact absurd (hrank.trans hxrank.symm) hkey.ne
        · exact Or.inl hseq
        · exact Or.inr ⟨hseq.symm, htxn.le⟩
      · obtain ⟨-, hseq, htxn⟩ := position_eq_iff.1 heq
        exact Or.inr ⟨hseq.symm, htxn.le⟩

/-- The row that a call of a scan hands on. -/
def LookupResult.outcome (r : LookupResult) : Option Tuple :=
  if !r.found || r.tombstone then Option.none else some r.payload

theorem outcome_ofOption (o : Option LeafEntry) :
    (LookupResult.ofOption o).outcome = o.bind LeafEntry.outcome := by
  cases o <;> rfl

/-- A point read of a search tree. -/
theorem Ordered.reads_get {t : BTree} {L : Layout} {others : List PageId} (h : Ordered L)
    (hrep : Rep t L others) {k : Value} (hk : k.isNaN = false) (txn visibleSeq : UInt64) :
    ∃ r, t.get k txn visibleSeq = .ok r ∧
      (archiveOf L.scanAll).Reads visibleSeq.toNat txn.toNat k.rank r.outcome := by
  refine ⟨_, h.get_rep hrep hk txn visibleSeq, ?_⟩
  rw [outcome_ofOption]
  exact h.versions.reads_lookup hk txn visibleSeq

/-- The rows listed for one key. -/
def rowsAt (k : Value) (rows : List (Value × Tuple)) : List Tuple :=
  (rows.filter fun r => r.1.compare k == .eq).map Prod.snd

/-- The rows that a scan emits, with their keys: in the order of the keys, and for every key what is
read there. -/
structure Lists (A : RowArchive) (horizon txn : ℕ) (rows : List (Value × Tuple)) : Prop where
  keys : ∀ r ∈ rows, r.1.isNaN = false
  sorted : (rows.map fun r => r.1.rank).Pairwise (· < ·)
  reads : ∀ k : Value, k.isNaN = false → ∀ value, A.Reads horizon txn k.rank value →
    rowsAt k rows = value.toList

/-- The calls of a scan that are not tombstones. -/
def emitted (reported : List (Value × LookupResult)) : List (Value × Tuple) :=
  (reported.filter fun r => !r.2.tombstone).map fun r => (r.1, r.2.payload)

theorem rowsAt_emitted (k : Value) (reported : List (Value × LookupResult)) :
    rowsAt k (emitted reported) =
      ((callsFor k reported).filter fun r => !r.tombstone).map LookupResult.payload := by
  induction reported with
  | nil => rfl
  | cons r reported ih =>
    simp only [rowsAt, emitted, callsFor] at ih ⊢
    cases htomb : r.2.tombstone with
    | true =>
      cases hkey : r.1.compare k == .eq with
      | true => simp [htomb, hkey, ih]
      | false => simp [htomb, hkey, ih]
    | false =>
      cases hkey : r.1.compare k == .eq with
      | true => simp [htomb, hkey, ih]
      | false => simp [htomb, hkey, ih]

/-- The keys that a scan reports are keys of entries, in their order. -/
theorem keys_scanGroups {txn visibleSeq : UInt64} {fuel : Nat} {es : List LeafEntry}
    {reported : List (Value × LookupResult)}
    (h : BTree.scanGroups txn visibleSeq fuel es = .ok reported) :
    (reported.map Prod.fst).Sublist (es.map LeafEntry.key) := by
  induction fuel generalizing es reported with
  | zero =>
    cases es with
    | nil =>
      cases h
      exact List.nil_sublist _
    | cons e es => cases h
  | succ fuel ih =>
    cases es with
    | nil =>
      cases h
      exact List.nil_sublist _
    | cons e es =>
      rw [BTree.scanGroups] at h
      cases hmore : BTree.scanGroups txn visibleSeq fuel
          ((e :: es).dropWhile fun x => x.key.operatorEq e.key) with
      | error f =>
        rw [hmore] at h
        cases h
      | ok more =>
        rw [hmore] at h
        -- the group goes up to the dropped entries; its first entry names the key
        have hsplit : (e :: es).map LeafEntry.key =
            ((e :: es).takeWhile fun x => x.key.operatorEq e.key).map LeafEntry.key ++
              ((e :: es).dropWhile fun x => x.key.operatorEq e.key).map LeafEntry.key := by
          rw [← List.map_append, List.takeWhile_append_dropWhile]
        have hrest : (more.map Prod.fst).Sublist ((e :: es).map LeafEntry.key) := by
          rw [hsplit]
          exact (ih hmore).trans (List.sublist_append_right _ _)
        cases hfind : ((e :: es).takeWhile fun x => x.key.operatorEq e.key).find?
            (BTree.visible txn visibleSeq) with
        | none =>
          dsimp only [bind, Except.bind] at h
          rw [hfind] at h
          cases h
          exact hrest
        | some v =>
          dsimp only [bind, Except.bind] at h
          rw [hfind] at h
          cases h
          have hhead : e.key.operatorEq e.key = true := by
            cases hself : e.key.operatorEq e.key with
            | true => rfl
            | false =>
              rw [List.takeWhile_cons_of_neg (by rw [hself]; exact Bool.false_ne_true)] at hfind
              cases hfind
          rw [List.dropWhile_cons_of_pos (p := fun x : LeafEntry => x.key.operatorEq e.key) hhead]
            at hmore
          rw [List.map_cons, List.map_cons]
          exact ((ih hmore).trans ((List.dropWhile_sublist _).map _)).cons_cons _

theorem keys_scanLeaves {txn visibleSeq : UInt64} {leaves : List (List LeafEntry)}
    {reported : List (Value × LookupResult)}
    (h : BTree.scanLeaves txn visibleSeq leaves = .ok reported) :
    (reported.map Prod.fst).Sublist (leaves.flatten.map LeafEntry.key) := by
  induction leaves generalizing reported with
  | nil =>
    cases h
    exact List.nil_sublist _
  | cons leaf leaves ih =>
    obtain ⟨first, more, hfirst, hmore, rfl⟩ := scanLeaves_cons_ok h
    rw [List.flatten_cons, List.map_append, List.map_append]
    exact (keys_scanGroups hfirst).append (ih hmore)

/-- Images that are weakly in order are strictly so when none comes twice. -/
theorem pairwise_lt_of_filter_le_one {α β : Type} [LinearOrder β] {f : α → β} {l : List α}
    {same : α → α → Bool} (hle : (l.map f).Pairwise (· ≤ ·))
    (hsame : ∀ x ∈ l, ∀ y ∈ l, same x y = true ↔ f x = f y)
    (honce : ∀ a ∈ l, (l.filter fun x => same x a).length ≤ 1) :
    (l.map f).Pairwise (· < ·) := by
  have hnodup : (l.map f).Nodup := by
    rw [List.nodup_iff_count_le_one]
    intro b
    by_cases hb : b ∈ l.map f
    · obtain ⟨a, ha, rfl⟩ := List.mem_map.1 hb
      rw [List.count_eq_countP, List.countP_map, List.countP_eq_length_filter]
      refine le_of_eq_of_le (congrArg List.length (List.filter_congr ?_)) (honce a ha)
      intro x hx
      rw [Bool.eq_iff_iff, hsame x hx a ha]
      exact beq_iff_eq
    · rw [List.count_eq_zero.2 hb]
      exact Nat.zero_le 1
  exact (hle.and hnodup).imp fun h => lt_of_le_of_ne h.1 h.2

/-- Two listings of the same reads are equal. -/
theorem Lists.rows_eq {A B : RowArchive} {horizon horizon' txn txn' : ℕ}
    {rows rows' : List (Value × Tuple)} (h : Lists A horizon txn rows)
    (h' : Lists B horizon' txn' rows')
    (hread : ∀ k : Value, k.isNaN = false → ∃ value, A.Reads horizon txn k.rank value ∧
      B.Reads horizon' txn' k.rank value) :
    rows.map Prod.snd = rows'.map Prod.snd := by
  have hmem : ∀ {A B : RowArchive} {horizon horizon' txn txn' : ℕ} {rows rows' : List (Value × Tuple)},
      Lists A horizon txn rows → Lists B horizon' txn' rows' →
      (∀ k : Value, k.isNaN = false → ∃ value, A.Reads horizon txn k.rank value ∧
        B.Reads horizon' txn' k.rank value) →
      ∀ c, c ∈ rows.map (fun r => (r.1.rank, r.2)) → c ∈ rows'.map fun r => (r.1.rank, r.2) := by
    intro A B horizon horizon' txn txn' rows rows' h h' hread c hc
    obtain ⟨r, hr, rfl⟩ := List.mem_map.1 hc
    have hkey := h.keys r hr
    obtain ⟨value, hvalue, hvalue'⟩ := hread r.1 hkey
    have hrow : r.2 ∈ rowsAt r.1 rows := by
      apply List.mem_map_of_mem
      rw [List.mem_filter]
      exact ⟨hr, by rw [beq_iff_eq, Value.compare_eq_eq_iff hkey hkey]⟩
    rw [h.reads r.1 hkey value hvalue, ← h'.reads r.1 hkey value hvalue'] at hrow
    obtain ⟨r', hr', hsnd⟩ := List.mem_map.1 hrow
    obtain ⟨hr'mem, heq⟩ := List.mem_filter.1 hr'
    rw [beq_iff_eq, Value.compare_eq_eq_iff (h'.keys r' hr'mem) hkey] at heq
    exact List.mem_map.2 ⟨r', hr'mem, by rw [heq, hsnd]⟩
  have hsorted : ∀ {A : RowArchive} {horizon txn : ℕ} {rows : List (Value × Tuple)},
      Lists A horizon txn rows →
      (rows.map fun r => (r.1.rank, r.2)).Pairwise fun c d => c.1 < d.1 := by
    intro A horizon txn rows h
    have hpair := h.sorted
    rw [List.pairwise_map] at hpair ⊢
    exact hpair
  have hirrefl : Std.Irrefl fun c d : KeyRank × Tuple => c.1 < d.1 := ⟨fun c => lt_irrefl c.1⟩
  have heq := (hsorted h).eq_of_mem_iff (hsorted h') fun c =>
    ⟨hmem h h' hread c, hmem h' h (fun k hk => by
      obtain ⟨value, hvalue, hvalue'⟩ := hread k hk
      exact ⟨value, hvalue', hvalue⟩) c⟩
  have hsnd := congrArg (List.map Prod.snd) heq
  rwa [List.map_map, List.map_map] at hsnd

/-- A scan of a search tree. -/
theorem Ordered.reads_scan {t : BTree} {L : Layout} {others : List PageId} (h : Ordered L)
    (hrep : Rep t L others) (txn visibleSeq : UInt64) :
    ∃ reported, t.scan txn visibleSeq = .ok reported ∧
      Lists (archiveOf L.scanAll) visibleSeq.toNat txn.toNat (emitted reported) := by
  obtain ⟨reported, hscan, hreports⟩ := h.scan_reports hrep txn visibleSeq
  have hkeys : ((emitted reported).map Prod.fst).Sublist (L.scanAll.map LeafEntry.key) := by
    rw [hrep.scan_eq] at hscan
    refine List.Sublist.trans ?_ (keys_scanLeaves hscan)
    rw [emitted, List.map_map]
    exact (List.filter_sublist (p := fun r : Value × LookupResult => !r.2.tombstone)).map Prod.fst
  have hkey : ∀ r ∈ emitted reported, r.1.isNaN = false := by
    intro r hr
    obtain ⟨e, he, heq⟩ := List.mem_map.1 (hkeys.subset (List.mem_map_of_mem hr))
    rw [← heq]
    exact h.versions.keys e he
  have hreads : ∀ k : Value, k.isNaN = false → ∀ value,
      (archiveOf L.scanAll).Reads visibleSeq.toNat txn.toNat k.rank value →
      rowsAt k (emitted reported) = value.toList := by
    intro k hk value hreads
    have hvalue := hreads.unique (h.versions.reads_lookup hk txn visibleSeq)
    rw [rowsAt_emitted, hreports k hk, hvalue]
    cases BTree.lookup k txn visibleSeq L.scanAll with
    | none => rfl
    | some e =>
      rw [Option.map_some, Option.bind_some, LeafEntry.outcome]
      cases htomb : e.tombstone with
      | true => simp [LookupResult.ofEntry, htomb]
      | false => simp [LookupResult.ofEntry, htomb]
  refine ⟨reported, hscan, hkey, ?_, hreads⟩
  have hlt := @pairwise_lt_of_filter_le_one (Value × Tuple) KeyRank _ (fun r => r.1.rank)
    (emitted reported) fun x y => x.1.compare y.1 == .eq
  apply hlt
  · -- the entries stand in the order of their keys
    have hsorted : (L.scanAll.map fun e => e.key.rank).Pairwise (· ≤ ·) := by
      rw [List.pairwise_map]
      exact h.versions.sorted.imp rank_le_of_position_lt
    have hsub := hkeys.map Value.rank
    rw [List.map_map, List.map_map] at hsub
    exact List.Pairwise.sublist hsub hsorted
  · intro x hx y hy
    rw [beq_iff_eq, Value.compare_eq_eq_iff (hkey x hx) (hkey y hy)]
  · intro r hr
    have hk := hkey r hr
    have hlength := congrArg List.length (hreads r.1 hk _ (h.versions.reads_lookup hk txn visibleSeq))
    rw [rowsAt, List.length_map] at hlength
    rw [hlength]
    exact Option.length_toList_le

end OpenDB
