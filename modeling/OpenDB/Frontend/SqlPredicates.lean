import OpenDB.Frontend.SqlReads

/-!
# Predicates

The functions for predicates never give up: where a comparison is broken off they return a null
pointer, and the chain of operands it belongs to goes on. A predicate is given up only if it is a null
pointer as a whole, and without an error text only if the text ends where its value is expected.
-/

set_option autoImplicit false

namespace OpenDB

open OpenDB.Library

namespace Sql.SqlParser

/-! ## Predicates -/

theorem noisy_comparisonOp : Noisy parseComparisonOp Sql.Operator fun op => op = none := by
  refine noisy_skip ?_ (skipsBlanks_if_keyword _ _ _)
  refine noisy_if (tests_keyword _) ?_ (noisy_of_plain (plain_firstSymbol _))
  refine noisy_skip ?_ (skipsBlanks_if_keyword _ _ _)
  refine noisy_if (tests_keyword _) (noisy_of_plain (.done _)) ?_
  refine noisy_if (tests_keyword _) ?_ (noisy_complain _ rfl)
  refine noisy_skip ?_ (skipsBlanks_if_keyword _ _ _)
  exact noisy_if (tests_keyword _) (noisy_of_plain (.done _)) (noisy_complain _ rfl)

theorem noisy_consume {α : Type} (lex : Bytes → Sql.Lexeme α) (unterminated : String) :
    Noisy (consume lex unterminated) (Maybe lex) fun a => a = none :=
  (parses_consume lex unterminated).weaken (fun _ _ _ => Iff.rfl) (fun _ _ _ _ h => h.1)
    fun _ _ h => h

theorem noisy_comparand (column : Bytes) (op : ComparisonOp) :
    Noisy (parseComparand column op) (Sql.Comparand column op) fun node => ¬ node.Complete := by
  rw [parseComparand]
  split_ifs with htest
  · refine (noisy_of_plain (.done _)).congr fun s node r => ?_
    constructor
    · rintro ⟨rfl, rfl⟩
      exact .nullTest htest
    · rintro (_ | ⟨hno, -⟩ | ⟨hno, -⟩)
      · exact ⟨rfl, rfl⟩
      · exact absurd htest (by simp [hno])
      · exact absurd htest (by simp [hno])
  · have hfalse : isNullTest op = false := by simpa using htest
    refine (noisy_bind (noisy_consume _ _) (T := fun value => value.elim (return .null) fun value =>
      return .comparison column op value) (fun value => ?_) ?_).congr ?_
    · cases value with
      | none => exact noisy_of_plain (.done _)
      | some value => exact noisy_of_plain (.done _)
    · rintro value m node r rfl ⟨rfl, -⟩
      exact id
    · intro s node r
      constructor
      · rintro ⟨value, m, ⟨value, rfl, hvalue⟩ | ⟨rfl, hvalue⟩, rfl, rfl⟩
        · exact .value hfalse hvalue
        · exact .noValue hfalse hvalue
      · rintro (hno | ⟨-, hvalue⟩ | ⟨-, hvalue⟩)
        · exact absurd hno htest
        · exact ⟨some _, r, .inl ⟨_, rfl, hvalue⟩, rfl, rfl⟩
        · exact ⟨none, r, .inr ⟨rfl, hvalue⟩, rfl, rfl⟩

theorem skipsBlanks_operand : SkipsBlanks Sql.Operand := by
  have htoken : ∀ {s column m}, Sql.Identifier (Sql.skip s) column m ↔ Sql.Identifier s column m := by
    intro s column m
    rw [Sql.Identifier, Sql.Token, Sql.skip_skip]
    rfl
  have hno : ∀ {s r}, Sql.NoToken Sql.lexIdentifier (Sql.skip s) () r ↔
      Sql.NoToken Sql.lexIdentifier s () r := by
    intro s r
    rw [Sql.NoToken, Sql.skip_skip]
    rfl
  intro s node r
  constructor
  · intro h
    cases h with
    | comparison hcolumn hop hcomparand => exact .comparison (htoken.1 hcolumn) hop hcomparand
    | noColumn hcolumn => exact .noColumn (hno.1 hcolumn)
    | noOperator hcolumn hop => exact .noOperator (htoken.1 hcolumn) hop
  · intro h
    cases h with
    | comparison hcolumn hop hcomparand => exact .comparison (htoken.2 hcolumn) hop hcomparand
    | noColumn hcolumn => exact .noColumn (hno.2 hcolumn)
    | noOperator hcolumn hop => exact .noOperator (htoken.2 hcolumn) hop

theorem noisy_primExpr : Noisy parsePrimExpr Sql.Operand fun node => ¬ node.Complete := by
  refine noisy_skip ?_ skipsBlanks_operand
  refine (noisy_bind (noisy_consume Sql.lexIdentifier _) (T := fun column =>
      column.elim (return .null) fun column =>
        Sql.Operator >>= fun op => op.elim (return .null) (Sql.Comparand column))
      (fun column => ?_) ?_).congr ?_
  · cases column with
    | none => exact noisy_complain _ id
    | some column =>
      -- behind the column the operator decides, and behind the operator the value
      refine noisy_bind (T := fun op => op.elim (return .null) (Sql.Comparand column))
        noisy_comparisonOp (fun op => ?_) ?_
      · cases op with
        | none => exact noisy_complain _ id
        | some op => exact noisy_comparand column op
      · rintro op m node r rfl ⟨rfl, -⟩
        exact id
  · rintro column m node r rfl ⟨rfl, -⟩
    exact id
  · intro s node r
    constructor
    · rintro ⟨column, m, ⟨column, rfl, hcolumn⟩ | ⟨rfl, hcolumn⟩, h⟩
      · obtain ⟨op, m', hop, h⟩ := h
        cases op with
        | none =>
          obtain ⟨rfl, rfl⟩ := h
          exact .noOperator hcolumn hop
        | some op => exact .comparison hcolumn hop h
      · obtain ⟨rfl, rfl⟩ := h
        exact .noColumn hcolumn
    · intro h
      cases h with
      | comparison hcolumn hop hcomparand =>
        exact ⟨some _, _, .inl ⟨_, rfl, hcolumn⟩, some _, _, hop, hcomparand⟩
      | noColumn hcolumn => exact ⟨none, _, .inr ⟨rfl, hcolumn⟩, rfl, rfl⟩
      | noOperator hcolumn hop => exact ⟨some _, _, .inl ⟨_, rfl, hcolumn⟩, none, _, hop, rfl, rfl⟩

/-! ## Chains of operands -/

section Chains

variable {kw : String} {op : LogicalOp} {operand : Parser NodePtr} {R : Rule UInt8 NodePtr}

/-- A round wraps what it is given. -/
theorem repeat_operand {left node : NodePtr} {s r : Bytes}
    (h : Repeat (fun left => Sql.IfRead (Sql.keyword kw) (do
      let right ← R
      return .inl (.logical op left right)) (return .inr left)) left s node r) :
    (node = left ∨ node ≠ .null) ∧ (node.Complete → left.Complete) := by
  induction h with
  | done h =>
    rcases h with ⟨m, -, right, m', -, h, -⟩ | ⟨-, h, -⟩
    · cases h
    · cases h
      exact ⟨.inl rfl, id⟩
  | again h _ ih =>
    rcases h with ⟨m, -, right, m', -, h, -⟩ | ⟨-, h, -⟩
    · cases h
      refine ⟨.inr ?_, fun hcomplete => (ih.2 hcomplete).1⟩
      rcases ih.1 with rfl | hne
      · exact fun h => by cases h
      · exact hne
    · cases h

theorem noisy_loop (hkw : ascii kw ≠ []) (hoperand : Noisy operand R fun node => ¬ node.Complete)
    (hR : R.Consumes) (left : NodePtr) :
    Noisy (loop (parseOperand kw op operand) left)
      (Repeat (fun left => Sql.IfRead (Sql.keyword kw) (do
        let right ← R
        return .inl (.logical op left right)) (return .inr left)) left)
      fun node : NodePtr => node ≠ .null ∧ ¬ node.Complete := by
  refine .whileTrue (N := fun _ _ x _ => ∃ node : NodePtr, x = .inl node ∧ ¬ node.Complete)
    (F := fun _ => unexcused) (M := fun _ _ node _ => node ≠ NodePtr.null ∧ ¬ NodePtr.Complete node)
    (G := fun _ => unexcused) (fun left => ?_) (fun left => ?_) ?_ ?_ (fun h => h)
    (fun _ h => h) left
  · refine noisy_skip (noisy_if (tests_keyword _) (noisy_bind hoperand
      (fun right => noisy_of_plain (.done _)) ?_) (noisy_of_plain (.done _)))
      (skipsBlanks_if_keyword _ _ _)
    rintro right m x r hright ⟨rfl, -⟩
    exact ⟨_, rfl, fun hcomplete => hright hcomplete.2⟩
  · exact Sql.shrinks_if_keyword hkw (.bind hR fun _ => .pure _) (.last _)
  · rintro left node s r - ⟨node', h, -⟩
    cases h
  · rintro left left' node s m r (⟨m', -, right, m'', -, h, -⟩ | ⟨-, h, -⟩) hrest hnoise
    · cases h
      have hkeep := repeat_operand hrest
      rcases hnoise with ⟨node', h, hbroken⟩ | hnoise
      · cases h
        refine ⟨?_, fun hcomplete => hbroken (hkeep.2 hcomplete)⟩
        rcases hkeep.1 with rfl | hne
        · exact fun h => by cases h
        · exact hne
      · exact hnoise
    · cases h

theorem noisy_chain (hkw : ascii kw ≠ []) (hoperand : Noisy operand R fun node => ¬ node.Complete)
    (hR : R.Consumes) :
    Noisy (operand >>= loop (parseOperand kw op operand)) (Sql.Chain kw op R)
      fun node => ¬ node.Complete := by
  refine (hoperand.bind fun left => noisy_loop hkw hoperand hR left).weaken (fun _ _ _ => Iff.rfl) ?_
    fun _ _ h => h.elim id fun ⟨_, _, _, h⟩ => h
  rintro s node r - ⟨left, m, -, hrest, hnoise⟩
  rcases hnoise with hleft | hnoise
  · exact fun hcomplete => hleft ((repeat_operand hrest).2 hcomplete)
  · exact hnoise.2

end Chains

theorem noisy_andExpr : Noisy parseAndExpr Sql.Conjunction fun node => ¬ node.Complete :=
  noisy_chain ascii_ne_nil noisy_primExpr Sql.consumes_operand

theorem noisy_orExpr : Noisy parseOrExpr Sql.Disjunction fun node => ¬ node.Complete :=
  noisy_chain ascii_ne_nil noisy_andExpr (Sql.consumes_chain _ _ Sql.consumes_operand)

/-! ## Complete predicates -/

theorem comparison_iff {s r : Bytes} {node : NodePtr} :
    Sql.Comparison s node r ↔ Sql.Operand s node r ∧ node.Complete := by
  constructor
  · intro h
    cases h with
    | nullTest hcolumn hop htest => exact ⟨.comparison hcolumn hop (.nullTest htest), trivial⟩
    | value hcolumn hop htest hvalue =>
      exact ⟨.comparison hcolumn hop (.value htest hvalue), trivial⟩
  · rintro ⟨h, hcomplete⟩
    cases h with
    | comparison hcolumn hop hcomparand =>
      cases hcomparand with
      | nullTest htest => exact .nullTest hcolumn hop htest
      | value htest hvalue => exact .value hcolumn hop htest hvalue
      | noValue _ _ => exact hcomplete.elim
    | noColumn _ => exact hcomplete.elim
    | noOperator _ _ => exact hcomplete.elim

section Complete

variable {kw : String} {op : LogicalOp} {R S : Rule UInt8 NodePtr} {s r : Bytes} {node : NodePtr}

/-- A chain is complete exactly if its operands are. -/
theorem chain_iff (h : ∀ s node r, R s node r ↔ S s node r ∧ node.Complete) :
    Sql.Chain kw op R s node r ↔ Sql.Chain kw op S s node r ∧ node.Complete := by
  constructor
  · rintro ⟨left, m, hleft, hrest⟩
    have hoperand := (h _ _ _).1 hleft
    suffices hall : _ ∧ node.Complete from ⟨⟨left, m, hoperand.1, hall.1⟩, hall.2⟩
    have hcomplete := hoperand.2
    clear hleft hoperand
    induction hrest with
    | done hend =>
      rcases hend with ⟨_, -, _, _, -, hend, -⟩ | ⟨hno, hend, rfl⟩
      · cases hend
      · cases hend
        exact ⟨.done (.inr ⟨hno, rfl, rfl⟩), hcomplete⟩
    | again hround _ ih =>
      rcases hround with ⟨m', hkw, right, m'', hright, hround, rfl⟩ | ⟨-, hround, -⟩
      · cases hround
        obtain ⟨hright, hrightComplete⟩ := (h _ _ _).1 hright
        obtain ⟨hrest, hall⟩ := ih ⟨hcomplete, hrightComplete⟩
        exact ⟨.again (.inl ⟨m', hkw, right, _, hright, rfl, rfl⟩) hrest, hall⟩
      · cases hround
  · rintro ⟨⟨left, m, hleft, hrest⟩, hcomplete⟩
    refine ⟨left, m, (h _ _ _).2 ⟨hleft, (repeat_operand hrest).2 hcomplete⟩, ?_⟩
    clear hleft
    induction hrest with
    | done hend =>
      rcases hend with ⟨_, -, _, _, -, hend, -⟩ | ⟨hno, hend, rfl⟩
      · cases hend
      · cases hend
        exact .done (.inr ⟨hno, rfl, rfl⟩)
    | again hround hrest ih =>
      rcases hround with ⟨m', hkw, right, m'', hright, hround, rfl⟩ | ⟨-, hround, -⟩
      · cases hround
        have hright := (h _ _ _).2 ⟨hright, ((repeat_operand hrest).2 hcomplete).2⟩
        exact .again (.inl ⟨m', hkw, right, _, hright, rfl, rfl⟩) (ih hcomplete)
      · cases hround

/-- What is read as a predicate is complete exactly if the text is a chain of complete comparisons. -/
theorem completePredicate_iff (h : Sql.Disjunction s node r) :
    Sql.CompletePredicate s ↔ node.Complete := by
  have hchain : ∀ {s node r}, Sql.Chain "OR" .or (Sql.Chain "AND" .and Sql.Comparison) s node r ↔
      Sql.Disjunction s node r ∧ node.Complete :=
    chain_iff fun _ _ _ => chain_iff fun _ _ _ => comparison_iff
  constructor
  · rintro ⟨node', r', h'⟩
    obtain ⟨h', hcomplete⟩ := hchain.1 h'
    obtain ⟨rfl, -⟩ := noisy_orExpr.unique (s := ⟨[], s, []⟩) h h'
    exact hcomplete
  · exact fun hcomplete => ⟨node, r, hchain.2 ⟨h, hcomplete⟩⟩

end Complete

/-! ## Null predicates -/

section NullPredicates

variable {kw : String} {op : LogicalOp} {x operand : Parser NodePtr} {R : Rule UInt8 NodePtr}
  {cut : Bytes → Prop}

/-- A null pointer comes with an error text, unless the text is cut off. -/
def ReportsNull (x : Parser NodePtr) (cut : Bytes → Prop) : Prop :=
  ∀ p p', x.run p = .ok .null p' → p'.error ≠ [] ∨ cut p.rest

/-- Where the text is cut off, there is a null pointer and nothing is said about it. -/
def SilentAt (x : Parser NodePtr) (cut : Bytes → Prop) : Prop :=
  ∀ p, cut p.rest → ∃ p', x.run p = .ok .null p' ∧ p'.rest = [] ∧ p'.error = p.error

theorem run_complain {α : Type} {error : Bytes} {a b : α} {p p' : SqlParser}
    (h : (setError error >>= fun _ => pure a).run p = .ok b p') : b = a ∧ p'.error = error := by
  cases h
  exact ⟨rfl, rfl⟩

theorem reportsNull_comparand {column : Bytes} {op : ComparisonOp} {p p' : SqlParser}
    (h : (parseComparand column op).run p = .ok .null p') :
    p'.error ≠ [] ∨ (isNullTest op = false ∧ Sql.skip p.rest = []) := by
  rw [parseComparand] at h
  split_ifs at h with htest
  · cases h
  · obtain ⟨value, q, hrun, hrest⟩ := run_bind_eq_ok.1 h
    cases value with
    | some value => cases hrest
    | none =>
      cases hrest
      rw [consumeValueLiteral, run_consume] at hrun
      cases hlex : Sql.lexValue (Sql.skip p.rest) with
      | found a rest =>
        rw [hlex] at hrun
        cases hrun
      | missing => exact .inr ⟨by simpa using htest, Sql.eq_nil_of_lexValue hlex⟩
      | unterminated =>
        rw [hlex] at hrun
        cases hrun
        exact .inl (show ascii "unterminated string literal" ≠ [] from ascii_ne_nil)
      | malformed =>
        rw [hlex] at hrun
        cases hrun
        exact .inl (List.append_ne_nil_of_left_ne_nil ascii_ne_nil _)

theorem reportsNull_primExpr : ReportsNull parsePrimExpr Sql.CutOperand := by
  intro p p' h
  obtain ⟨column, q, hcolumn, h⟩ := run_bind_eq_ok.1
    (show ((consumeIdentifier >>= _).run { p with rest := Sql.skip p.rest }) = _ from h)
  cases column with
  | none =>
    obtain ⟨-, herror⟩ := run_complain h
    exact .inl (herror ▸ by decide)
  | some column =>
    obtain ⟨op, q', hop, h⟩ := run_bind_eq_ok.1 h
    cases op with
    | none =>
      obtain ⟨-, herror⟩ := run_complain h
      exact .inl (herror ▸ by decide)
    | some op =>
      refine (reportsNull_comparand h).imp_right fun ⟨htest, hend⟩ => ?_
      have hread : Sql.Identifier p.rest column q.rest := by
        rcases (noisy_consume _ _).sound hcolumn with ⟨column', h, htoken⟩ | ⟨h, -⟩
        · cases h
          simpa [Sql.Identifier, Sql.Token, reporting] using htoken
        · cases h
      exact ⟨column, op, q.rest, q'.rest, hread, noisy_comparisonOp.sound hop, htest, hend⟩

theorem silentAt_comparand (column : Bytes) {op : ComparisonOp} {p : SqlParser}
    (htest : isNullTest op = false) (hend : Sql.skip p.rest = []) :
    ∃ p', (parseComparand column op).run p = .ok .null p' ∧ p'.rest = [] ∧ p'.error = p.error := by
  refine ⟨{ p with rest := [] }, ?_, rfl, rfl⟩
  have hvalue : consumeValueLiteral.run p = .ok none { p with rest := [] } := by
    rw [consumeValueLiteral, run_consume, hend]
    rfl
  rw [parseComparand, if_neg (by simp [htest]), EStateM.run_bind, hvalue]
  rfl

theorem silentAt_primExpr : SilentAt parsePrimExpr Sql.CutOperand := by
  rintro p ⟨column, op, m, m', hcolumn, hop, htest, hend⟩
  have hcolumn' : Maybe Sql.lexIdentifier (Sql.skip p.rest) (some column) m :=
    .inl ⟨column, rfl, by simpa [Sql.Identifier, Sql.Token] using hcolumn⟩
  obtain ⟨q, hq, rfl, hqerror⟩ := quiet_run (noisy_consume Sql.lexIdentifier
    "unterminated quoted identifier") (p := { p with rest := Sql.skip p.rest }) hcolumn' (by simp)
  obtain ⟨q', hq', rfl, hq'error⟩ := quiet_run noisy_comparisonOp hop (by simp)
  obtain ⟨p', hp', hrest, herror⟩ := silentAt_comparand column htest hend
  refine ⟨p', ?_, hrest, herror.trans (hq'error.trans hqerror)⟩
  refine run_bind_eq_ok.2 ⟨(), { p with rest := Sql.skip p.rest }, rfl, ?_⟩
  refine run_bind_eq_ok.2 ⟨some column, q, hq, ?_⟩
  exact run_bind_eq_ok.2 ⟨some op, q', hq', hp'⟩

theorem reportsNull_chain (hkw : ascii kw ≠ []) (hoperand : Noisy operand R fun node => ¬ node.Complete)
    (hR : R.Consumes) (hnull : ReportsNull operand cut) :
    ReportsNull (operand >>= loop (parseOperand kw op operand)) cut := by
  intro p p' h
  obtain ⟨left, q, hleft, hloop⟩ := run_bind_eq_ok.1 h
  have hparses : Noisy (loop (parseOperand kw op operand) left) _ _ := noisy_loop hkw hoperand hR left
  -- the loop wraps whatever it reads, so a null pointer is the first operand
  rcases (repeat_operand (hparses.sound hloop)).1 with rfl | hne
  · rcases hparses.keeps q _ p' hloop with hsame | ⟨hne, -⟩
    · rcases hnull p q hleft with herror | hcut
      · exact .inl (hsame ▸ herror)
      · exact .inr hcut
    · exact absurd rfl hne
  · exact absurd rfl hne

theorem silentAt_chain (hkw : ascii kw ≠ []) (hoperand : Noisy operand R fun node => ¬ node.Complete)
    (hR : R.Consumes) (hsilent : SilentAt operand cut) :
    SilentAt (operand >>= loop (parseOperand kw op operand)) cut := by
  intro p hcut
  obtain ⟨q, hq, hqrest, hqerror⟩ := hsilent p hcut
  have hend : Repeat (fun left => Sql.IfRead (Sql.keyword kw) (do
      let right ← R
      return .inl (.logical op left right)) (return .inr left)) NodePtr.null q.rest .null [] := by
    refine .done (.inr ⟨Sql.keyword_eq_none hkw ?_, rfl, ?_⟩) <;> rw [hqrest] <;> rfl
  have hparses : Noisy (loop (parseOperand kw op operand) .null) _ _ :=
    noisy_loop hkw hoperand hR .null
  obtain ⟨p', hp', hrest, herror⟩ := quiet_run hparses hend (by simp)
  exact ⟨p', run_bind_eq_ok.2 ⟨.null, q, hq, hp'⟩, hrest, herror.trans hqerror⟩

end NullPredicates

theorem reportsNull_orExpr : ReportsNull parseOrExpr Sql.CutOperand :=
  reportsNull_chain ascii_ne_nil noisy_andExpr (Sql.consumes_chain _ _ Sql.consumes_operand)
    (reportsNull_chain ascii_ne_nil noisy_primExpr Sql.consumes_operand reportsNull_primExpr)

theorem silentAt_orExpr : SilentAt parseOrExpr Sql.CutOperand :=
  silentAt_chain ascii_ne_nil noisy_andExpr (Sql.consumes_chain _ _ Sql.consumes_operand)
    (silentAt_chain ascii_ne_nil noisy_primExpr Sql.consumes_operand silentAt_primExpr)

/-! ## WHERE -/

/-- A predicate that is not complete. -/
def Broken (predicate : Option NodePtr) : Prop := ∃ node, predicate = some node ∧ ¬ node.Complete

theorem parses_wherePredicate :
    Parses reporting parseWherePredicate Sql.WherePredicate (fun _ predicate _ => Broken predicate)
      (fun stop s => stop = .rejected ∧ Sql.CutOperand s) where
  reads p predicate r := by
    constructor
    · rintro ⟨p', h, rfl⟩
      obtain ⟨node, q, hnode, h⟩ := run_bind_eq_ok.1 h
      refine ⟨node, q.rest, noisy_orExpr.sound hnode, ?_⟩
      -- a predicate that is null was given up below and is rejected
      by_cases hnull : node = .null
      · rw [if_pos hnull] at h
        cases h
      · rw [if_neg hnull] at h ⊢
        cases h
        exact ⟨rfl, rfl⟩
    · rintro ⟨node, m, hnode, h⟩
      obtain ⟨q, hq, rfl⟩ := noisy_orExpr.complete hnode
      by_cases hnull : node = .null
      · rw [if_pos hnull] at h
        exact h.elim
      · rw [if_neg hnull] at h
        obtain ⟨rfl, rfl⟩ := h
        exact ⟨q, run_bind_eq_ok.2 ⟨node, q, hq, by rw [if_neg hnull]; rfl⟩, rfl⟩
  keeps p predicate p' h := by
    obtain ⟨node, q, hnode, h⟩ := run_bind_eq_ok.1 h
    by_cases hnull : node = .null
    · rw [if_pos hnull] at h
      cases h
    · rw [if_neg hnull] at h
      cases h
      exact (noisy_orExpr.keeps p node _ hnode).imp_right fun hbroken => ⟨node, rfl, hbroken⟩
  fails p stop p' h := by
    rcases run_bind_eq_error.1 h with h | ⟨node, q, hnode, h⟩
    · exact (noisy_orExpr.fails p stop p' h).imp_right False.elim
    · by_cases hnull : node = .null
      · rw [if_pos hnull] at h
        cases h
        rcases reportsNull_orExpr p _ (hnull ▸ hnode) with herror | hcut
        · exact .inl ⟨rfl, herror⟩
        · exact .inr ⟨rfl, hcut⟩
      · rw [if_neg hnull] at h
        cases h

theorem failsSilently_wherePredicate :
    FailsSilently reporting parseWherePredicate fun stop s => stop = .rejected ∧ Sql.CutOperand s := by
  rintro p stop ⟨rfl, hcut⟩
  obtain ⟨q, hq, -, herror⟩ := silentAt_orExpr p hcut
  exact ⟨q, run_bind_eq_error.2 (.inr ⟨.null, q, hq, rfl⟩), herror⟩

/-- A WHERE clause whose only comparison ends with the text. -/
def CutWhere (s : Bytes) : Prop := ∃ m, Sql.keyword "WHERE" s = some m ∧ Sql.CutOperand m

theorem parses_where :
    Parses reporting parseWhere Sql.Where (fun _ predicate _ => Broken predicate)
      (fun stop s => stop = .rejected ∧ CutWhere s) := by
  refine (parses_if (tests_keyword _) parses_wherePredicate (.done none)).weaken (fun _ _ _ => Iff.rfl)
    ?_ ?_
  · rintro s predicate r - (⟨m, -, h⟩ | ⟨-, h⟩)
    · exact h
    · cases h
  · rintro stop s (⟨m, hm, hstop, hcut⟩ | ⟨-, h⟩)
    · exact ⟨hstop, m, hm, hcut⟩
    · cases h

end Sql.SqlParser

end OpenDB
