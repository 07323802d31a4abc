import OpenDB.Frontend.SqlOutcome

/-!
# Lists of statements in one text

`parseAll` cuts its text at the semicolons outside of quotes and parses the pieces one by one; a piece
that is rejected is passed over. The cutter keeps track of the quotes by itself. It knows neither
comments nor backslashes, so a quote in a comment or behind a backslash opens or closes a quote for it,
and a semicolon in a comment ends a statement.

A text comes through unharmed in every list if quotes that toggle like this are all closed at its end,
and no semicolon stands outside of them but behind the statement (`KeepsWhole`, `batches_parse`). An
open quote, or a gap in the predicate, does harm in some list.

What a semicolon inside of the statement does depends on the pieces that it leaves. Exactly if one of
them happens to be read as the statement and the others are rejected (`Batchable`) does the text come
through in every list (`batches_iff`).
-/

set_option autoImplicit false

namespace OpenDB

open OpenDB.Library

namespace Sql.SqlParser

/-! ## What becomes of a piece -/

/-- The copy of a statement, if there is no null pointer in its predicate. -/
def copied : SqlStatement → Option SqlStatement
  | .command cmd =>
    match cmd.predicate with
    | none => some (.command cmd)
    | some node => (copyPredicate node).map fun node => .command { cmd with predicate := some node }
  | statement => some statement

/-- What `parseAll` keeps of a piece: the copy of its statement, or nothing if the piece is rejected. An
exception is no outcome. -/
def outcome (piece : Bytes) : Option (Option SqlStatement) :=
  match (parse piece).run ⟨[], [], []⟩ with
  | .ok (some statement) _ => (copied statement).map some
  | .ok none _ => some none
  | .error _ _ => none

/-- What is kept of a list of pieces. -/
def outcomes : List Bytes → Option (List SqlStatement)
  | [] => some []
  | piece :: pieces => do
    let kept ← outcome piece
    let more ← outcomes pieces
    return kept.toList ++ more

variable {piece : Bytes} {pieces more : List Bytes} {statement : SqlStatement} {p : SqlParser}
  {out : List SqlStatement}

theorem run_copyStatement_eq (statement : SqlStatement) (p : SqlParser) :
    (copyStatement statement).run p =
      match copied statement with
      | some copy => .ok copy p
      | none => .error .nullDereference p := by
  cases statement with
  | command cmd =>
    cases hpredicate : cmd.predicate with
    | none =>
      simp only [copyStatement, copied, hpredicate]
      rfl
    | some node =>
      simp only [copyStatement, copied, hpredicate]
      cases copyPredicate node <;> rfl
  | _ => rfl

theorem cloneNode_eq {node clone : NodePtr} (h : cloneNode node = some clone) : clone = node := by
  induction node generalizing clone with
  | null => cases h
  | comparison column op operand =>
    cases h
    rfl
  | logical op left right ihleft ihright =>
    obtain ⟨left', hleft, h⟩ := Option.bind_eq_some_iff.1 h
    obtain ⟨right', hright, h⟩ := Option.bind_eq_some_iff.1 h
    cases h
    rw [ihleft hleft, ihright hright]

/-- The copy is the statement. -/
theorem copied_eq {copy : SqlStatement} (h : copied statement = some copy) : copy = statement := by
  cases statement with
  | command cmd =>
    cases hpredicate : cmd.predicate with
    | none =>
      simp only [copied, hpredicate] at h
      cases h
      rfl
    | some node =>
      simp only [copied, hpredicate] at h
      obtain ⟨node', hnode, rfl⟩ := Option.map_eq_some_iff.1 h
      -- only the predicate is copied node by node
      have hsame : node' = node := by
        cases node with
        | null =>
          cases hnode
          rfl
        | comparison column op operand => exact cloneNode_eq hnode
        | logical op left right => exact cloneNode_eq hnode
      rw [hsame, ← hpredicate]
  | _ =>
    cases h
    rfl

/-- The loop of `parseAll` keeps what its pieces come to. -/
theorem run_parseEach_iff :
    (∃ p', (parseEach pieces).run p = .ok out p') ↔ outcomes pieces = some out := by
  induction pieces generalizing p out with
  | nil =>
    constructor
    · rintro ⟨p', h⟩
      cases h
      rfl
    · intro h
      cases h
      exact ⟨p, rfl⟩
  | cons piece pieces ih =>
    -- the parser is given a new text, so what it was before does not matter
    have hparse : (parse piece).run p = (parse piece).run ⟨[], [], []⟩ := by
      rw [run_parse, run_parse]
    rw [parseEach, EStateM.run_bind, hparse, outcomes, outcome]
    cases (parse piece).run ⟨[], [], []⟩ with
    | error stop q => simp
    | ok parsed q =>
      cases parsed with
      -- a rejected piece is passed over
      | none => simp [ih]
      | some statement =>
        simp only [EStateM.run_bind, run_copyStatement_eq]
        cases copied statement with
        | none => simp
        | some copy =>
          -- the copy is kept, and the rest follows from the induction hypothesis
          simp only [Option.map_some, Option.bind_eq_bind, Option.bind_some, Option.toList_some,
            Option.bind_eq_some_iff, ← ih (p := q)]
          constructor
          · rintro ⟨p', h⟩
            cases hrest : (parseEach pieces).run q with
            | error stop q' =>
              rw [hrest] at h
              cases h
            | ok rest q' =>
              rw [hrest] at h
              cases h
              exact ⟨rest, ⟨_, rfl⟩, rfl⟩
          · rintro ⟨rest, ⟨q', hrest⟩, h⟩
            cases h
            rw [hrest]
            exact ⟨_, rfl⟩

theorem outcomes_append :
    outcomes (pieces ++ more) = do
      let out ← outcomes pieces
      let rest ← outcomes more
      return out ++ rest := by
  induction pieces with
  | nil =>
    rw [List.nil_append, outcomes]
    cases outcomes more <;> rfl
  | cons piece pieces ih =>
    rw [List.cons_append, outcomes, outcomes, ih]
    cases outcome piece with
    | none => rfl
    | some kept =>
      cases outcomes pieces with
      | none => rfl
      | some out =>
        cases outcomes more with
        | none => rfl
        | some rest => simp

/-- Blanks in front of a piece do not matter. -/
theorem outcome_skip (piece : Bytes) : outcome (skip piece) = outcome piece := by
  have hread : ∀ piece : Bytes, ∀ statement r, Statement piece statement r →
      outcome piece = (copied statement).map some := by
    intro piece statement r h
    obtain ⟨q, hrun, -⟩ := parse_of_statement ⟨[], [], []⟩ h
    rw [outcome, hrun]
  have hbare : ∀ piece : Bytes, BareWrite piece → outcome piece = none := by
    intro piece h
    obtain ⟨what, q, hrun⟩ := parse_of_bareWrite h ⟨[], [], []⟩
    rw [outcome, hrun]
  have hnone : ∀ piece : Bytes, ¬ BareWrite piece → (∀ statement r, ¬ Statement piece statement r) →
      outcome piece = some none := by
    intro piece hbare hnone
    obtain ⟨result, q, hrun, -⟩ := parse_of_not_bareWrite hbare ⟨[], [], []⟩
    cases result with
    | none => rw [outcome, hrun]
    | some statement => exact absurd (statement_of_parse hrun).2 (hnone statement _)
  -- the three outcomes of a piece, each of which the blanks leave as it is
  by_cases hwrite : BareWrite piece
  · rw [hbare _ hwrite, hbare _ (bareWrite_skip.2 hwrite)]
  · by_cases hstatement : ∃ statement r, Statement piece statement r
    · obtain ⟨statement, r, h⟩ := hstatement
      rw [hread _ _ _ h, hread _ _ _ ((skipsBlanks_statement piece statement r).2 h)]
    · have hnot : ∀ statement r, ¬ Statement piece statement r :=
        fun statement r h => hstatement ⟨statement, r, h⟩
      rw [hnone _ hwrite hnot, hnone _ (fun h => hwrite (bareWrite_skip.1 h))
        fun statement r h => hnot statement r ((skipsBlanks_statement piece statement r).1 h)]

theorem outcome_newline (piece : Bytes) : outcome (10 :: piece) = outcome piece := by
  have hskip : skip (10 :: piece) = skip piece := rfl
  rw [← outcome_skip, hskip, outcome_skip]

/-! ## How a text is cut -/

/-- What the cutter makes of a text: the pieces it has cut off, what stands behind the last cut, and the
quotes that it takes itself to be in at the end. -/
structure Cut where
  pieces : List Bytes
  last : Bytes
  inSingle : Bool
  inDouble : Bool
  deriving DecidableEq

/-- The cutter outside of quotes. -/
def Cut.Outside (c : Cut) : Prop := c.inSingle = false ∧ c.inDouble = false

/-- All pieces of a text behind which nothing stands. -/
def Cut.all (c : Cut) : List Bytes := c.pieces ++ [c.last]

/-- The loop of `splitStatements` over a text that others follow. -/
def cut (inSingle inDouble : Bool) (current : Bytes) : Bytes → Cut
  | [] => ⟨[], current, inSingle, inDouble⟩
  | c :: rest =>
    if c = 39 ∧ inDouble = false then cut (!inSingle) inDouble (current ++ [c]) rest
    else if c = 34 ∧ inSingle = false then cut inSingle (!inDouble) (current ++ [c]) rest
    else if c = 59 ∧ inSingle = false ∧ inDouble = false then
      let more := cut inSingle inDouble [] rest
      { more with pieces := current :: more.pieces }
    else cut inSingle inDouble (current ++ [c]) rest

variable {inSingle inDouble : Bool} {current text rest : Bytes}

theorem splitStatements_append :
    splitStatements inSingle inDouble current (text ++ rest) =
      (cut inSingle inDouble current text).pieces ++
        splitStatements (cut inSingle inDouble current text).inSingle
          (cut inSingle inDouble current text).inDouble
          (cut inSingle inDouble current text).last rest := by
  induction text generalizing inSingle inDouble current with
  | nil => rfl
  | cons c text ih =>
    rw [List.cons_append, splitStatements, cut]
    split_ifs with hsingle hdouble hsemicolon
    · exact ih
    · exact ih
    · dsimp only
      rw [ih, List.cons_append]
    · exact ih

/-- What stands in front of a text is in front of its first piece. -/
theorem cut_append_current (before : Bytes) :
    ∃ first others, (cut inSingle inDouble current text).all = first :: others ∧
      (cut inSingle inDouble (before ++ current) text).all = (before ++ first) :: others ∧
      (cut inSingle inDouble (before ++ current) text).inSingle =
        (cut inSingle inDouble current text).inSingle ∧
      (cut inSingle inDouble (before ++ current) text).inDouble =
        (cut inSingle inDouble current text).inDouble := by
  induction text generalizing inSingle inDouble current with
  | nil => exact ⟨current, [], rfl, rfl, rfl, rfl⟩
  | cons c text ih =>
    unfold cut
    split_ifs with hsingle hdouble hsemicolon
    · rw [List.append_assoc]
      exact ih
    · rw [List.append_assoc]
      exact ih
    · exact ⟨current, (cut inSingle inDouble [] text).all, rfl, rfl, rfl, rfl⟩
    · rw [List.append_assoc]
      exact ih

/-- In quotes, a text without quotes is not cut. -/
theorem splitStatements_inside (hinside : inSingle = true ∨ inDouble = true)
    (hplain : 39 ∉ text ∧ 34 ∉ text) (hsome : text ≠ []) :
    splitStatements inSingle inDouble current text = [current ++ text] := by
  induction text generalizing current with
  | nil => exact absurd rfl hsome
  | cons c text ih =>
    obtain ⟨hsingle, hdouble⟩ := hplain
    rw [List.mem_cons, not_or] at hsingle hdouble
    have hsemicolon : ¬ (c = 59 ∧ inSingle = false ∧ inDouble = false) := by
      rintro ⟨-, hs, hd⟩
      rcases hinside with h | h
      · exact Bool.false_ne_true (hs.symm.trans h)
      · exact Bool.false_ne_true (hd.symm.trans h)
    rw [splitStatements, if_neg fun h => hsingle.1 h.1.symm, if_neg fun h => hdouble.1 h.1.symm,
      if_neg hsemicolon]
    cases text with
    | nil =>
      have hflag : (inSingle || inDouble) = true := by
        rcases hinside with h | h <;> simp [h]
      rw [splitStatements, if_pos hflag, if_neg (by simp)]
    | cons d text =>
      rw [ih ⟨hsingle.2, hdouble.2⟩ (List.cons_ne_nil _ _), List.append_assoc]
      rfl

/-! ## Lists of texts -/

/-- A text that `parse` accepts, and the statement it returns. -/
structure AcceptedText where
  text : Bytes
  statement : SqlStatement
  accepted : ∃ p', (parse text).run ⟨[], [], []⟩ = .ok (some statement) p'

/-- The texts with a semicolon and a new line between them. -/
def batch (texts : List AcceptedText) : Bytes :=
  [59, 10].intercalate (texts.map AcceptedText.text)

/-- `parseAll` returns the statements of the texts, in order. -/
def BatchParses (texts : List AcceptedText) : Prop :=
  ∀ p, ∃ p', (parseAll (batch texts)).run p = .ok (texts.map AcceptedText.statement) p'

/-- The pieces of a text alone. -/
def AcceptedText.cutAlone (t : AcceptedText) : Cut := cut false false [] t.text

/-- The cutter leaves the quotes of the text, and of the pieces that it makes of the text one is read as
its statement and the others are rejected. -/
structure Batchable (t : AcceptedText) : Prop where
  outside : t.cutAlone.Outside
  pieces : ∃ front piece back, t.cutAlone.all = front ++ piece :: back ∧
    outcome piece = some (some t.statement) ∧
    ∀ other ∈ front ++ back, outcome other = some none

variable {t : AcceptedText} {texts : List AcceptedText}

theorem batch_cons (t u : AcceptedText) (texts : List AcceptedText) :
    batch (t :: u :: texts) = t.text ++ 59 :: 10 :: batch (u :: texts) := by
  unfold batch
  rw [List.map_cons, List.map_cons, List.intercalate_cons_cons, List.append_assoc]
  rfl

theorem batchParses_iff : BatchParses texts ↔
    outcomes (splitStatements false false [] (batch texts)) =
      some (texts.map AcceptedText.statement) := by
  constructor
  · intro h
    exact run_parseEach_iff.1 (h ⟨[], [], []⟩)
  · intro h p
    exact run_parseEach_iff.2 h

/-- Nothing is kept of rejected pieces, and of no others. -/
theorem outcomes_eq_nil_iff :
    outcomes pieces = some [] ↔ ∀ piece ∈ pieces, outcome piece = some none := by
  induction pieces with
  | nil => exact iff_of_true rfl fun _ h => nomatch h
  | cons piece pieces ih =>
    rw [List.forall_mem_cons, ← ih, outcomes]
    constructor
    · intro h
      obtain ⟨kept, hpiece, h⟩ := Option.bind_eq_some_iff.1 h
      obtain ⟨more, hmore, h⟩ := Option.bind_eq_some_iff.1 h
      injection h with h
      obtain ⟨hkept, rfl⟩ := List.append_eq_nil_iff.1 h
      cases kept with
      | none => exact ⟨hpiece, hmore⟩
      | some statement => cases hkept
    · rintro ⟨hpiece, hpieces⟩
      rw [hpiece, hpieces]
      rfl

theorem outcomes_eq_singleton_iff : outcomes pieces = some [statement] ↔
    ∃ front piece back, pieces = front ++ piece :: back ∧ outcome piece = some (some statement) ∧
      ∀ other ∈ front ++ back, outcome other = some none := by
  constructor
  · intro h
    induction pieces with
    | nil => cases h
    | cons piece pieces ih =>
      obtain ⟨kept, hpiece, h⟩ := Option.bind_eq_some_iff.1 h
      obtain ⟨more, hmore, h⟩ := Option.bind_eq_some_iff.1 h
      injection h with h
      cases kept with
      | none =>
        -- the statement is further behind
        obtain ⟨front, p, back, rfl, hp, hothers⟩ := ih (hmore.trans (congrArg some h))
        exact ⟨piece :: front, p, back, rfl, hp, List.forall_mem_cons.2 ⟨hpiece, hothers⟩⟩
      | some first =>
        obtain ⟨rfl, rfl⟩ := List.cons.inj h
        exact ⟨[], piece, pieces, rfl, hpiece, outcomes_eq_nil_iff.1 hmore⟩
  · rintro ⟨front, piece, back, rfl, hpiece, hothers⟩
    have hfront := outcomes_eq_nil_iff.2 fun other h => hothers other (List.mem_append_left _ h)
    have hback := outcomes_eq_nil_iff.2 fun other h => hothers other (List.mem_append_right _ h)
    rw [outcomes_append, outcomes, hpiece, hfront, hback]
    rfl

/-- What the cutter makes of the text alone. -/
theorem splitStatements_alone (h : t.cutAlone.Outside) :
    splitStatements false false [] t.text = t.cutAlone.all := by
  have hsplit := @splitStatements_append false false [] t.text []
  rw [List.append_nil] at hsplit
  rw [hsplit, splitStatements]
  change t.cutAlone.pieces ++ (if t.cutAlone.inSingle || t.cutAlone.inDouble then _ else _) = _
  rw [h.1, h.2]
  rfl

/-- Behind a new line the pieces of a text come to the same. -/
theorem outcomes_behind_newline (h : Batchable t) :
    (cut false false [10] t.text).Outside ∧
      outcomes (cut false false [10] t.text).all = some [t.statement] := by
  obtain ⟨first, others, hall, hbehind, hsingle, hdouble⟩ :=
    @cut_append_current false false [] t.text [10]
  have halone : outcomes (cut false false [] t.text).all = some [t.statement] :=
    outcomes_eq_singleton_iff.2 h.pieces
  refine ⟨⟨hsingle.trans h.outside.1, hdouble.trans h.outside.2⟩, ?_⟩
  rw [hall] at halone
  -- only the first piece gets the new line, and it is skipped as a blank
  rw [List.append_nil] at hbehind
  rw [hbehind, List.singleton_append, outcomes, outcome_newline]
  exact halone

/-- A list of batchable texts, behind a blank line or not. -/
theorem outcomes_batch (texts : List AcceptedText) (t : AcceptedText) {current : Bytes}
    (hfirst : (cut false false current t.text).Outside ∧
      outcomes (cut false false current t.text).all = some [t.statement])
    (hrest : ∀ u ∈ texts, Batchable u) :
    outcomes (splitStatements false false current (batch (t :: texts))) =
      some ((t :: texts).map AcceptedText.statement) := by
  obtain ⟨⟨hsingle, hdouble⟩, hpieces⟩ := hfirst
  induction texts generalizing t current with
  | nil =>
    have hbatch : batch [t] = t.text ++ [] := by simp [batch]
    rw [hbatch, splitStatements_append, hsingle, hdouble, splitStatements]
    exact hpieces
  | cons u texts ih =>
    obtain ⟨hu, htexts⟩ := List.forall_mem_cons.1 hrest
    obtain ⟨houtside, hnext⟩ := outcomes_behind_newline hu
    -- the semicolon ends the last piece, and the new line starts the next one
    have hcut : splitStatements false false (cut false false current t.text).last
        (59 :: 10 :: batch (u :: texts)) =
          (cut false false current t.text).last ::
            splitStatements false false [10] (batch (u :: texts)) := by
      rw [splitStatements, if_neg (by decide), if_neg (by decide), if_pos (by decide),
        splitStatements, if_neg (by decide), if_neg (by decide), if_neg (by decide)]
      rfl
    have htail := ih u htexts hnext houtside.1 houtside.2
    have happend : (cut false false current t.text).pieces ++
        (cut false false current t.text).last ::
          splitStatements false false [10] (batch (u :: texts)) =
        (cut false false current t.text).all ++
          splitStatements false false [10] (batch (u :: texts)) := by
      rw [Cut.all, List.append_assoc]
      rfl
    rw [batch_cons, splitStatements_append, hsingle, hdouble, hcut, happend, outcomes_append, hpieces,
      htail]
    rfl

/-- Batchable texts come through in every list. -/
theorem batchParses_of_batchable (h : ∀ t ∈ texts, Batchable t) : BatchParses texts := by
  rw [batchParses_iff]
  cases texts with
  | nil =>
    have hempty : outcome [] = some none := by decide +kernel
    exact outcomes_eq_nil_iff.2 fun piece hpiece => List.mem_singleton.1 hpiece ▸ hempty
  | cons t texts =>
    obtain ⟨ht, htexts⟩ := List.forall_mem_cons.1 h
    exact outcomes_batch texts t ⟨ht.outside, outcomes_eq_singleton_iff.2 ht.pieces⟩ htexts

/-! ## Texts that do harm -/

def commitText : AcceptedText := ⟨ascii "COMMIT", .txnCommit, _, rfl⟩

def rollbackText : AcceptedText := ⟨ascii "ROLLBACK", .txnRollback, _, rfl⟩

theorem batchable_commit : Batchable commitText :=
  ⟨⟨by decide +kernel, by decide +kernel⟩, [], ascii "COMMIT", [], by decide +kernel,
    by decide +kernel, fun _ h => nomatch h⟩

theorem batchable_rollback : Batchable rollbackText :=
  ⟨⟨by decide +kernel, by decide +kernel⟩, [], ascii "ROLLBACK", [], by decide +kernel,
    by decide +kernel, fun _ h => nomatch h⟩

/-- If the cutter is inside of quotes at the end of the text, the statements behind the text run into
its last piece. -/
theorem outcomes_inside {after : List AcceptedText} (hinside : ¬ t.cutAlone.Outside)
    (hafter : after ≠ []) (hplain : 39 ∉ batch after ∧ 34 ∉ batch after) :
    outcomes (splitStatements false false [] (batch (t :: after))) =
      outcomes (t.cutAlone.pieces ++ [t.cutAlone.last ++ 59 :: 10 :: batch after]) := by
  obtain ⟨u, texts, rfl⟩ := List.exists_cons_of_ne_nil hafter
  -- one of the quotes is open, and nothing behind the text closes it
  have hflags : t.cutAlone.inSingle = true ∨ t.cutAlone.inDouble = true := by
    by_contra hnone
    obtain ⟨hsingle, hdouble⟩ := not_or.1 hnone
    exact hinside ⟨Bool.eq_false_iff.2 hsingle, Bool.eq_false_iff.2 hdouble⟩
  have hquotes : 39 ∉ (59 :: 10 :: batch (u :: texts) : Bytes) ∧
      34 ∉ (59 :: 10 :: batch (u :: texts) : Bytes) := by
    constructor
    · simpa using hplain.1
    · simpa using hplain.2
  rw [batch_cons, splitStatements_append]
  exact congrArg (fun last => outcomes (t.cutAlone.pieces ++ last))
    (splitStatements_inside hflags hquotes (List.cons_ne_nil _ _))

/-- So the statements of two texts behind it are not both kept. -/
theorem outside_of_batchParses
    (h : ∀ after : List AcceptedText, (∀ u ∈ after, u = commitText ∨ u = rollbackText) →
      BatchParses (t :: after)) : t.cutAlone.Outside := by
  by_contra hinside
  have hkept : ∀ u v : AcceptedText, (u = commitText ∨ u = rollbackText) →
      (v = commitText ∨ v = rollbackText) → (39 ∉ batch [u, v] ∧ 34 ∉ batch [u, v]) →
        ∃ front kept, outcomes t.cutAlone.pieces = some front ∧
          front ++ Option.toList kept = [t.statement, u.statement, v.statement] := by
    intro u v hu hv hplain
    have hall : ∀ w ∈ [u, v], w = commitText ∨ w = rollbackText := by
      intro w hw
      rcases List.mem_pair.1 hw with rfl | rfl
      · exact hu
      · exact hv
    have hparses := batchParses_iff.1 (h [u, v] hall)
    rw [outcomes_inside hinside (List.cons_ne_nil _ _) hplain, outcomes_append] at hparses
    obtain ⟨front, hfront, hparses⟩ := Option.bind_eq_some_iff.1 hparses
    obtain ⟨rest, hrest, hparses⟩ := Option.bind_eq_some_iff.1 hparses
    obtain ⟨kept, -, hrest⟩ := Option.bind_eq_some_iff.1 hrest
    cases hrest
    injection hparses with hparses
    exact ⟨front, kept, hfront, by simpa using hparses⟩
  obtain ⟨front, kept, hfront, heq⟩ := hkept commitText commitText (.inl rfl) (.inl rfl)
    (by decide +kernel)
  obtain ⟨front', kept', hfront', heq'⟩ := hkept rollbackText rollbackText (.inr rfl) (.inr rfl)
    (by decide +kernel)
  obtain rfl : front = front' := Option.some.inj (hfront.symm.trans hfront')
  -- the second statement is among what the text itself leaves, whatever stands behind it
  have hsecond : ∀ kept : Option SqlStatement, ∀ u v : SqlStatement,
      front ++ kept.toList = [t.statement, u, v] → front[1]? = some u := by
    intro kept u v heq
    have hlength := congrArg List.length heq
    have hle : kept.toList.length ≤ 1 := by cases kept <;> simp
    simp only [List.length_append, List.length_cons, List.length_nil] at hlength
    have hget := congrArg (·[1]?) heq
    simpa [List.getElem?_append_left (show 1 < front.length by omega)] using hget
  have h₁ := hsecond _ _ _ heq
  have h₂ := hsecond _ _ _ heq'
  rw [h₁] at h₂
  exact absurd h₂ (by decide)

/-- Texts come through in all lists of them, of COMMIT and of ROLLBACK if and only if all of them are
batchable. -/
theorem batches_iff (T : Set AcceptedText) :
    (∀ texts, (∀ t ∈ texts, t ∈ T ∨ t = commitText ∨ t = rollbackText) → BatchParses texts) ↔
      ∀ t ∈ T, Batchable t := by
  constructor
  · intro h t ht
    have houtside : t.cutAlone.Outside := by
      refine outside_of_batchParses fun after hafter => h _ ?_
      exact List.forall_mem_cons.2 ⟨.inl ht, fun u hu => .inr (hafter u hu)⟩
    -- alone, the text comes to its statement and to nothing else
    have halone : BatchParses [t] := h [t] fun u hu => .inl (List.mem_singleton.1 hu ▸ ht)
    have hbatch : batch [t] = t.text := by simp [batch]
    rw [batchParses_iff, hbatch, splitStatements_alone houtside] at halone
    exact ⟨houtside, outcomes_eq_singleton_iff.1 halone⟩
  · intro h texts htexts
    refine batchParses_of_batchable fun t ht => ?_
    rcases htexts t ht with ht | rfl | rfl
    · exact h t ht
    · exact batchable_commit
    · exact batchable_rollback

/-- What is not cut is left as it is. -/
theorem last_of_uncut (h : (cut inSingle inDouble current text).pieces = []) :
    (cut inSingle inDouble current text).last = current ++ text := by
  induction text generalizing inSingle inDouble current with
  | nil => exact (List.append_nil current).symm
  | cons c text ih =>
    have happend : current ++ c :: text = current ++ [c] ++ text := by simp
    rw [happend]
    unfold cut at h ⊢
    split_ifs at h ⊢ with hsingle hdouble hsemicolon
    · exact ih h
    · exact ih h
    · exact ih h

/-! ## Texts that do none -/

/-- A text that is not cut is batchable if there is no gap in its predicate. -/
theorem batchable_of_uncut (houtside : t.cutAlone.Outside) (huncut : t.cutAlone.pieces = [])
    (hcopy : (copied t.statement).isSome) : Batchable t := by
  obtain ⟨p', hrun⟩ := t.accepted
  obtain ⟨copy, hcopy⟩ := Option.isSome_iff_exists.1 hcopy
  refine ⟨houtside, [], t.text, [], ?_, ?_, fun _ h => nomatch h⟩
  · rw [Cut.all, huncut]
    exact congrArg (fun last => [last]) (last_of_uncut huncut)
  · simp only [outcome, hrun, hcopy, copied_eq hcopy, Option.map_some]

/-- Where in its quotes a text is. -/
inductive Quotes where
  | outside | single | double
  deriving DecidableEq

/-- A quote opens or closes its kind, unless it stands inside of the other kind. -/
def Quotes.step : Quotes → UInt8 → Quotes
  | .outside, c => if c = 39 then .single else if c = 34 then .double else .outside
  | .single, c => if c = 39 then .outside else .single
  | .double, c => if c = 34 then .outside else .double

/-- The quotes that are open behind the text. -/
def quotesBehind (text : Bytes) : Quotes := text.foldl Quotes.step .outside

/-- No comparison of the predicate is missing. -/
def SqlStatement.Gapless : SqlStatement → Prop
  | .command cmd => ∀ node ∈ cmd.predicate, node = .null ∨ node.Complete
  | _ => True

/-- All quotes of the text are closed, its predicate has no gap, and no semicolon stands outside of the
quotes but behind the statement, with nothing but blanks and further ones behind it. -/
structure KeepsWhole (t : AcceptedText) : Prop where
  closed : quotesBehind t.text = .outside
  uncut : ∃ body tail, t.text = body ++ tail ∧ (∃ r, Statement body t.statement r) ∧
    (∀ u v, body = u ++ 59 :: v → quotesBehind u ≠ .outside) ∧
    (tail = [] ∨ tail.head? = some 59) ∧ ∀ c ∈ tail, c = 59 ∨ isSpace c = true
  gapless : SqlStatement.Gapless t.statement

/-- A text without a semicolon outside of its quotes. -/
theorem KeepsWhole.of_uncut (hclosed : quotesBehind t.text = .outside)
    (huncut : ∀ u v, t.text = u ++ 59 :: v → quotesBehind u ≠ .outside)
    (hgapless : SqlStatement.Gapless t.statement) : KeepsWhole t := by
  obtain ⟨p', hrun⟩ := t.accepted
  refine ⟨hclosed, ⟨t.text, [], (List.append_nil _).symm, ⟨_, (statement_of_parse hrun).2⟩, huncut,
    Or.inl rfl, fun c hc => absurd hc List.not_mem_nil⟩, hgapless⟩

theorem copied_isSome_iff : (copied statement).isSome ↔ SqlStatement.Gapless statement := by
  cases statement with
  | command cmd =>
    cases hpredicate : cmd.predicate with
    | none => simp [copied, SqlStatement.Gapless, hpredicate]
    | some node =>
      simp only [copied, SqlStatement.Gapless, hpredicate, Option.isSome_map, Option.mem_def,
        Option.some.injEq, forall_eq']
      cases node with
      | null => simp [copyPredicate]
      | comparison column op operand => simp [copyPredicate, cloneNode, NodePtr.Complete]
      | logical op left right =>
        rw [copyPredicate, cloneNode_isSome]
        · simp
        · rintro ⟨⟩
  | _ => simp [copied, SqlStatement.Gapless]

/-- The flags of the cutter. -/
theorem cut_quotes (q : Quotes) (current text : Bytes) :
    (cut (decide (q = .single)) (decide (q = .double)) current text).inSingle =
        decide (text.foldl Quotes.step q = .single) ∧
      (cut (decide (q = .single)) (decide (q = .double)) current text).inDouble =
        decide (text.foldl Quotes.step q = .double) := by
  induction text generalizing q current with
  | nil => exact ⟨rfl, rfl⟩
  | cons c text ih =>
    have hnext := ih (q.step c)
    rw [List.foldl_cons, cut]
    cases q with
    | outside =>
      by_cases hsingle : c = 39
      · simpa [Quotes.step, hsingle] using hnext (current ++ [c])
      by_cases hdouble : c = 34
      · simpa [Quotes.step, hdouble] using hnext (current ++ [c])
      by_cases hsemicolon : c = 59
      · simpa [Quotes.step, hsemicolon] using hnext []
      · simpa [Quotes.step, hsingle, hdouble, hsemicolon] using hnext (current ++ [c])
    | single =>
      by_cases hsingle : c = 39
      · simpa [Quotes.step, hsingle] using hnext (current ++ [c])
      · simpa [Quotes.step, hsingle] using hnext (current ++ [c])
    | double =>
      by_cases hdouble : c = 34
      · simpa [Quotes.step, hdouble] using hnext (current ++ [c])
      · simpa [Quotes.step, hdouble] using hnext (current ++ [c])

/-- The flags of the cutter at the end of a text. -/
theorem outside_iff : t.cutAlone.Outside ↔ quotesBehind t.text = .outside := by
  obtain ⟨hsingle, hdouble⟩ := cut_quotes .outside [] t.text
  change t.cutAlone.inSingle = _ at hsingle
  change t.cutAlone.inDouble = _ at hdouble
  rw [Cut.Outside, hsingle, hdouble, quotesBehind]
  cases t.text.foldl Quotes.step .outside <;> decide

/-- Where no semicolon stands outside of quotes nothing is cut off. -/
theorem pieces_eq_nil (q : Quotes) (current : Bytes)
    (h : ∀ u v, text = u ++ 59 :: v → u.foldl Quotes.step q ≠ .outside) :
    (cut (decide (q = .single)) (decide (q = .double)) current text).pieces = [] := by
  induction text generalizing q current with
  | nil => rfl
  | cons c text ih =>
    have hrest : ∀ u v, text = u ++ 59 :: v → u.foldl Quotes.step (q.step c) ≠ .outside := by
      rintro u v rfl
      exact h (c :: u) v rfl
    have hnext := fun current => ih (q.step c) current hrest
    rw [cut]
    cases q with
    | outside =>
      have hsemicolon : c ≠ 59 := by
        rintro rfl
        exact h [] text rfl rfl
      by_cases hsingle : c = 39
      · simpa [Quotes.step, hsingle] using hnext (current ++ [c])
      by_cases hdouble : c = 34
      · simpa [Quotes.step, hdouble] using hnext (current ++ [c])
      · simpa [Quotes.step, hsingle, hdouble, hsemicolon] using hnext (current ++ [c])
    | single =>
      by_cases hsingle : c = 39
      · simpa [Quotes.step, hsingle] using hnext (current ++ [c])
      · simpa [Quotes.step, hsingle] using hnext (current ++ [c])
    | double =>
      by_cases hdouble : c = 34
      · simpa [Quotes.step, hdouble] using hnext (current ++ [c])
      · simpa [Quotes.step, hdouble] using hnext (current ++ [c])

/-- Blanks and semicolons are cut into blank pieces. -/
theorem blank_of_mem_split (hcurrent : ∀ c ∈ current, isSpace c = true)
    (h : ∀ c ∈ text, c = 59 ∨ isSpace c = true) :
    ∀ piece ∈ splitStatements false false current text, ∀ c ∈ piece, isSpace c = true := by
  induction text generalizing current with
  | nil =>
    intro piece hpiece
    rw [List.mem_singleton.1 hpiece]
    exact hcurrent
  | cons c text ih =>
    obtain ⟨hc, htext⟩ := List.forall_mem_cons.1 h
    by_cases hsemicolon : c = 59
    · subst hsemicolon
      intro piece hpiece
      rcases List.mem_cons.1 (show piece ∈ current :: splitStatements false false [] text from hpiece)
        with rfl | hpiece
      · exact hcurrent
      · exact ih (fun c hc => absurd hc List.not_mem_nil) htext piece hpiece
    · have hspace := hc.resolve_left hsemicolon
      have hsingle : c ≠ 39 := by
        rintro rfl
        exact absurd hspace (by decide)
      have hdouble : c ≠ 34 := by
        rintro rfl
        exact absurd hspace (by decide)
      rw [splitStatements, if_neg (by simp [hsingle]), if_neg (by simp [hdouble]),
        if_neg (by simp [hsemicolon])]
      refine ih (fun d hd => ?_) htext
      rcases List.mem_append.1 hd with hd | hd
      · exact hcurrent d hd
      · rw [List.mem_singleton.1 hd]
        exact hspace

theorem outcome_blank (h : ∀ c ∈ piece, isSpace c = true) : outcome piece = some none := by
  have hskip : skip piece = [] := by
    induction piece with
    | nil => rfl
    | cons c piece ih =>
      obtain ⟨hc, hpiece⟩ := List.forall_mem_cons.1 h
      rw [skip_cons_of_isSpace hc]
      exact ih hpiece
  rw [← outcome_skip, hskip]
  decide +kernel

/-- Blanks and semicolons open no quote. -/
theorem foldl_step_of_blank (q : Quotes) (h : ∀ c ∈ text, c = 59 ∨ isSpace c = true) :
    text.foldl Quotes.step q = q := by
  induction text with
  | nil => rfl
  | cons c text ih =>
    obtain ⟨hc, htext⟩ := List.forall_mem_cons.1 h
    have hsingle : c ≠ 39 := by
      rintro rfl
      exact absurd hc (by decide)
    have hdouble : c ≠ 34 := by
      rintro rfl
      exact absurd hc (by decide)
    have hstep : q.step c = q := by
      cases q <;> simp [Quotes.step, hsingle, hdouble]
    rw [List.foldl_cons, hstep]
    exact ih htext

/-- A body that is not cut is the first piece. -/
theorem splitStatements_body {body tail : Bytes} (hclosed : quotesBehind body = .outside)
    (huncut : ∀ u v, body = u ++ 59 :: v → quotesBehind u ≠ .outside) :
    splitStatements false false [] (body ++ tail) = splitStatements false false body tail := by
  have hpieces : (cut false false [] body).pieces = [] := pieces_eq_nil .outside [] huncut
  obtain ⟨hsingle, hdouble⟩ := cut_quotes .outside [] body
  change (cut false false [] body).inSingle = _ at hsingle
  change (cut false false [] body).inDouble = _ at hdouble
  rw [show body.foldl Quotes.step .outside = .outside from hclosed] at hsingle hdouble
  rw [splitStatements_append, hpieces, hsingle, hdouble, last_of_uncut hpieces]
  rfl

/-- The body is a piece of its own, and what stands behind it comes to nothing. -/
theorem batchable_of_keepsWhole (h : KeepsWhole t) : Batchable t := by
  obtain ⟨body, tail, htext, ⟨r, hread⟩, huncut, hhead, hblank⟩ := h.uncut
  have houtcome : outcome body = some (some t.statement) := by
    obtain ⟨p', hrun, -⟩ := parse_of_statement ⟨[], [], []⟩ hread
    obtain ⟨copy, hcopy⟩ := Option.isSome_iff_exists.1 (copied_isSome_iff.2 h.gapless)
    simp only [outcome, hrun, hcopy, copied_eq hcopy, Option.map_some]
  have hclosed : quotesBehind body = .outside := by
    have hall := h.closed
    rw [htext, quotesBehind, List.foldl_append, foldl_step_of_blank _ hblank] at hall
    exact hall
  have houtside := outside_iff.2 h.closed
  refine ⟨houtside, [], body, ?_⟩
  rw [← splitStatements_alone houtside, htext, splitStatements_body hclosed huncut]
  rcases hhead with rfl | hhead
  · exact ⟨[], rfl, houtcome, fun other hother => absurd hother List.not_mem_nil⟩
  · obtain ⟨c, tail, rfl⟩ := List.exists_cons_of_ne_nil (show tail ≠ [] by rintro rfl; cases hhead)
    cases hhead
    have htail : ∀ c ∈ tail, c = 59 ∨ isSpace c = true := (List.forall_mem_cons.1 hblank).2
    exact ⟨splitStatements false false [] tail, rfl, houtcome, fun other hother => outcome_blank
      (blank_of_mem_split (fun c hc => absurd hc List.not_mem_nil) htail other hother)⟩

/-- Texts that are kept whole come through in every list. Conversely, if texts come through in all lists
of them, of COMMIT and of ROLLBACK, their quotes are closed and their predicates have no gaps. -/
theorem batches_parse (texts : List AcceptedText) (T : Set AcceptedText) :
    ((∀ t ∈ texts, KeepsWhole t) → BatchParses texts) ∧
      ((∀ texts, (∀ t ∈ texts, t ∈ T ∨ t = commitText ∨ t = rollbackText) → BatchParses texts) →
        ∀ t ∈ T, quotesBehind t.text = .outside ∧ SqlStatement.Gapless t.statement) := by
  refine ⟨fun h => batchParses_of_batchable fun t ht => batchable_of_keepsWhole (h t ht), fun h t ht => ?_⟩
  have hbatchable := (batches_iff T).1 h t ht
  refine ⟨outside_iff.1 hbatchable.outside, copied_isSome_iff.1 ?_⟩
  obtain ⟨-, piece, -, -, hpiece, -⟩ := hbatchable.pieces
  -- the piece that is read as the statement has been copied
  unfold outcome at hpiece
  split at hpiece
  · obtain ⟨copy, hcopy, heq⟩ := Option.map_eq_some_iff.1 hpiece
    cases heq
    rw [copied_eq hcopy, hcopy]
    rfl
  · cases hpiece
  · cases hpiece

/-- An INSERT of a text with a semicolon in its quotes, and one behind the statement. -/
def quotedText : AcceptedText where
  text := ascii "INSERT INTO t VALUES ('a;b');"
  statement := .command (insertCommand (ascii "t")
    (Tuple.empty.set (decimal 0) (.text (ascii "a;b"))))
  accepted := ⟨⟨ascii "INSERT INTO t VALUES ('a;b');", [59], []⟩,
    parse_of_returned (by decide +kernel)⟩

/-- The body of a text is not cut if no prefix of it that is followed by a semicolon ends outside. -/
theorem uncut_of_forall_length {body : Bytes}
    (h : ∀ n < body.length, body[n]? = some 59 → quotesBehind (body.take n) ≠ .outside) :
    ∀ u v, body = u ++ 59 :: v → quotesBehind u ≠ .outside := by
  rintro u v rfl
  have hn := h u.length (by simp) (by simp)
  rwa [List.take_left] at hn

/-- The INSERT comes through between two other statements. -/
theorem batches_parse_quoted : BatchParses [commitText, quotedText, rollbackText] := by
  have hcommit : KeepsWhole commitText := .of_uncut (by decide +kernel)
    (uncut_of_forall_length (by decide +kernel)) trivial
  have hrollback : KeepsWhole rollbackText := .of_uncut (by decide +kernel)
    (uncut_of_forall_length (by decide +kernel)) trivial
  have hquoted : KeepsWhole quotedText := by
    have hrun : ∃ p', (parse (ascii "INSERT INTO t VALUES ('a;b')")).run ⟨[], [], []⟩ =
        .ok (some quotedText.statement) p' :=
      ⟨⟨ascii "INSERT INTO t VALUES ('a;b')", [], []⟩, parse_of_returned (by decide +kernel)⟩
    obtain ⟨p', hrun⟩ := hrun
    refine ⟨by decide +kernel, ⟨ascii "INSERT INTO t VALUES ('a;b')", ascii ";", by decide +kernel,
      ⟨_, (statement_of_parse hrun).2⟩, uncut_of_forall_length (by decide +kernel), Or.inr rfl,
      by decide +kernel⟩, ?_⟩
    intro node hnode
    cases hnode
  refine (batches_parse _ ∅).1 fun t ht => ?_
  simp only [List.mem_cons, List.not_mem_nil, or_false] at ht
  rcases ht with rfl | rfl | rfl
  · exact hcommit
  · exact hquoted
  · exact hrollback

/-- A query with an apostrophe in the comment behind it. -/
def commentText : AcceptedText where
  text := ascii "SELECT * FROM t -- it's"
  statement := .command ⟨.select, ascii "t", none, none, [ascii "*"], [], [], none, none⟩
  accepted := ⟨⟨ascii "SELECT * FROM t -- it's", [], []⟩, parse_of_returned (by decide +kernel)⟩

/-- An INSERT of a text with a quote and a semicolon in it. -/
def escapedText : AcceptedText where
  text := ascii "INSERT INTO t VALUES ('a\\';b')"
  statement := .command (insertCommand (ascii "t")
    (Tuple.empty.set (decimal 0) (.text (ascii "a\\';b"))))
  accepted := ⟨⟨ascii "INSERT INTO t VALUES ('a\\';b')", [], []⟩,
    parse_of_returned (by decide +kernel)⟩

/-- The apostrophe hides the COMMIT behind the query, and of the INSERT only a row without values is
left. -/
theorem comment_hides_commit :
    outcomes (splitStatements false false [] (batch [commentText, commitText])) =
        some [commentText.statement] ∧
      ¬ BatchParses [commentText, commitText] ∧
      outcomes (splitStatements false false [] (batch [escapedText])) =
        some [.command ⟨.insert, ascii "t", none, some .empty, [], [], [], none, none⟩] ∧
      ¬ BatchParses [escapedText] := by
  refine ⟨?_, fun h => ?_, ?_, fun h => ?_⟩
  · decide +kernel
  · exact absurd (batchParses_iff.1 h) (by decide +kernel)
  · decide +kernel
  · exact absurd (batchParses_iff.1 h) (by decide +kernel)

end Sql.SqlParser

end OpenDB
