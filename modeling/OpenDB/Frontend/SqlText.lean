import OpenDB.Frontend.SqlBatches
import OpenDB.Frontend.WherePrecedence
import OpenDB.Library.BlindRules

/-!
# Words of a statement

A statement is written as a list of words with a blank in front of each. The words are names, literals,
conditions and the fixed words of the language. A word brings along that the cutter of statements passes
over it, and so the cutter passes over the whole text.

The lemmas say what each token of the grammar makes of a list of words: it reads the first word and
leaves the others, or it sees that the first word is none of its kind.
-/

set_option autoImplicit false

namespace OpenDB

open OpenDB.Library

namespace Sql

/-! ## Texts that are not cut -/

/-- The cutter passes over the text, and is outside of quotes at its end. -/
def Uncut (text : Bytes) : Prop :=
  ∀ current, SqlParser.cut false false current text = ⟨[], current ++ text, false, false⟩

/-- No quotes and no semicolon. -/
def isQuiet (text : Bytes) : Bool := text.all fun c => c != 39 && c != 34 && c != 59

theorem uncut_of_isQuiet {text : Bytes} (h : isQuiet text = true) : Uncut text := by
  induction text with
  | nil =>
    intro current
    rw [List.append_nil]
    rfl
  | cons c text ih =>
    intro current
    simp only [isQuiet, List.all_cons, Bool.and_eq_true, bne_iff_ne] at h
    obtain ⟨⟨⟨hsingle, hdouble⟩, hsemicolon⟩, hrest⟩ := h
    rw [SqlParser.cut, if_neg fun h => hsingle h.1, if_neg fun h => hdouble h.1,
      if_neg fun h => hsemicolon h.1, ih hrest, List.append_assoc]
    rfl

theorem cut_append (inSingle inDouble : Bool) (current text rest : Bytes) :
    SqlParser.cut inSingle inDouble current (text ++ rest) =
      let front := SqlParser.cut inSingle inDouble current text
      let back := SqlParser.cut front.inSingle front.inDouble front.last rest
      { back with pieces := front.pieces ++ back.pieces } := by
  induction text generalizing inSingle inDouble current with
  | nil => rfl
  | cons c text ih =>
    rw [List.cons_append, SqlParser.cut, SqlParser.cut]
    split_ifs
    · exact ih _ _ _
    · exact ih _ _ _
    · dsimp only
      rw [ih]
      rfl
    · exact ih _ _ _

theorem Uncut.append {text rest : Bytes} (h : Uncut text) (hrest : Uncut rest) :
    Uncut (text ++ rest) := by
  intro current
  rw [cut_append, h current]
  dsimp only
  rw [hrest, List.append_assoc]
  rfl

theorem Uncut.flatMap {α : Type} {items : List α} {text : α → Bytes}
    (h : ∀ a ∈ items, Uncut (text a)) : Uncut (items.flatMap text) := by
  induction items with
  | nil => exact uncut_of_isQuiet rfl
  | cons a items ih =>
    rw [List.flatMap_cons]
    exact (h a List.mem_cons_self).append (ih fun b hb => h b (List.mem_cons_of_mem _ hb))

theorem Uncut.intercalate {sep : Bytes} {texts : List Bytes} (hsep : Uncut sep)
    (h : ∀ text ∈ texts, Uncut text) : Uncut (sep.intercalate texts) := by
  cases texts with
  | nil => exact uncut_of_isQuiet rfl
  | cons first more =>
    rw [intercalate_cons]
    refine (h first List.mem_cons_self).append (.flatMap fun text htext => ?_)
    exact hsep.append (h text (List.mem_cons_of_mem _ htext))

/-- Between single quotes the cutter waits for the next one. -/
theorem cut_quoted {body : Bytes} (h : 39 ∉ body) (current rest : Bytes) :
    SqlParser.cut true false current (body ++ 39 :: rest) =
      SqlParser.cut false false (current ++ (body ++ [39])) rest := by
  induction body generalizing current with
  | nil => rfl
  | cons c body ih =>
    rw [List.mem_cons, not_or] at h
    have hsingle : ¬ (c = 39 ∧ false = false) := fun hc => h.1 hc.1.symm
    have hdouble : ¬ (c = 34 ∧ true = false) := fun hc => Bool.true_eq_false_eq_False hc.2
    have hsemicolon : ¬ (c = 59 ∧ true = false ∧ false = false) :=
      fun hc => Bool.true_eq_false_eq_False hc.2.1
    rw [List.cons_append, SqlParser.cut, if_neg hsingle, if_neg hdouble, if_neg hsemicolon, ih h.2,
      List.append_assoc]
    rfl

/-! ## Words -/

/-- A word of a statement. -/
structure SqlWord where
  text : Bytes
  uncut : Uncut text

theorem isQuiet_of_isWordByte {text : Bytes} (h : text.all isWordByte = true) :
    isQuiet text = true := by
  refine List.all_eq_true.2 fun c hc => ?_
  have hword := List.all_eq_true.1 h c hc
  have hne : ∀ d : UInt8, isWordByte d = false → c ≠ d := by
    rintro d hd rfl
    rw [hword] at hd
    cases hd
  simp [hne 39 (by decide), hne 34 (by decide), hne 59 (by decide)]

theorem isWordByte_of_isBareName {name : Bytes} (h : isBareName name = true) :
    name.all isWordByte = true := by
  cases name with
  | nil => rfl
  | cons c rest =>
    simp only [isBareName, Bool.and_eq_true, Bool.or_eq_true] at h
    rw [List.all_cons, h.2, Bool.and_true]
    rcases h.1 with halpha | hline
    · simp [isWordByte, isAlnum, halpha]
    · simp [isWordByte, hline]

theorem uncut_name (name : BareName) : Uncut name.1 :=
  uncut_of_isQuiet (isQuiet_of_isWordByte (isWordByte_of_isBareName name.2))

theorem isQuiet_decimal (n : Nat) : isQuiet (decimal n) = true :=
  isQuiet_of_isWordByte (List.all_eq_true.2 fun _ hc => isWordByte_of_isDigit (isDigit_of_mem_decimal hc))

/-! Words that tables and other statements have in common. -/

theorem isQuiet_open : isQuiet (ascii "(") = true := rfl

theorem isQuiet_close : isQuiet (ascii ")") = true := rfl

theorem isQuiet_by : isQuiet (ascii "BY") = true := rfl

theorem isQuiet_drop : isQuiet (ascii "DROP") = true := rfl

theorem isQuiet_default : isQuiet (ascii "DEFAULT") = true := rfl

theorem uncut_literal (l : PlainLiteral) : Uncut l.rendered := by
  cases l with
  | int64 n =>
    rw [PlainLiteral.rendered, signedDecimal]
    split_ifs
    · exact (uncut_of_isQuiet rfl).append (uncut_of_isQuiet (isQuiet_decimal _))
    · exact uncut_of_isQuiet (isQuiet_decimal _)
  | boolean b => cases b <;> exact uncut_of_isQuiet rfl
  | null => exact uncut_of_isQuiet rfl
  | text body =>
    intro current
    have hquoted := cut_quoted body.2.1 (current ++ [39]) []
    rw [List.append_assoc] at hquoted
    exact hquoted

theorem uncut_comparison (c : PlainComparison) : Uncut c.rendered := by
  have hop : ∀ op, Uncut (operatorText op) := by
    intro op
    cases op <;> exact uncut_of_isQuiet rfl
  have hblank : Uncut (ascii " ") := uncut_of_isQuiet rfl
  cases c with
  | value column op operand =>
    exact (uncut_name column).append (hblank.append ((hop op.1).append
      (hblank.append (uncut_literal operand))))
  | nullTest column op => exact (uncut_name column).append (hblank.append (hop op.1))

theorem uncut_condition (condition : Filled Clause) : Uncut (renderedClauses condition) := by
  refine .intercalate (uncut_of_isQuiet rfl) ?_
  simp only [List.forall_mem_map]
  intro clause _
  refine .intercalate (uncut_of_isQuiet rfl) ?_
  simp only [List.forall_mem_map]
  exact fun comparison _ => uncut_comparison comparison

namespace SqlWord

/-- A word of the language. -/
def fixed (text : String) (h : isQuiet (ascii text) = true) : SqlWord := ⟨ascii text, uncut_of_isQuiet h⟩

def name (n : BareName) : SqlWord := ⟨n.1, uncut_name n⟩

def literal (l : PlainLiteral) : SqlWord := ⟨l.rendered, uncut_literal l⟩

def number (n : Nat) : SqlWord := ⟨decimal n, uncut_of_isQuiet (isQuiet_decimal n)⟩

def condition (c : Filled Clause) : SqlWord := ⟨renderedClauses c, uncut_condition c⟩

end SqlWord

/-- The text of the words, each behind a blank. -/
def sql (words : List SqlWord) : Bytes := words.flatMap fun w => 32 :: w.text

theorem sql_cons (w : SqlWord) (ws : List SqlWord) : sql (w :: ws) = 32 :: (w.text ++ sql ws) := rfl

theorem uncut_sql (words : List SqlWord) : Uncut (sql words) :=
  .flatMap fun w _ => (@uncut_of_isQuiet [32] rfl).append w.uncut

theorem atGap_sql (words : List SqlWord) : AtGap (sql words) := by
  cases words with
  | nil => exact .inl rfl
  | cons w ws => exact .inr ⟨_, rfl⟩

/-! ## Words that are read -/

section

variable {ws : List SqlWord} {kw sym : String}

/-- A word of letters. -/
def isKeyword (kw : String) : Bool := !(ascii kw).isEmpty && (ascii kw).all isAlpha

theorem isKeyword_iff : isKeyword kw = true ↔ ascii kw ≠ [] ∧ (ascii kw).all isAlpha = true := by
  simp [isKeyword]

theorem keyword_append {text rest : Bytes} (hkw : isKeyword kw = true) (htext : text = ascii kw)
    (h : AtGap rest) : keyword kw (32 :: (text ++ rest)) = some rest := by
  subst htext
  obtain ⟨hne, halpha⟩ := isKeyword_iff.1 hkw
  have hgap : (rest.head?.any isWordByte) = false := by
    rcases h with rfl | ⟨tail, rfl⟩ <;> rfl
  have hskip : skip (32 :: (ascii kw ++ rest)) = ascii kw ++ rest := by
    cases hbytes : ascii kw with
    | nil => exact absurd hbytes hne
    | cons c more =>
      rw [hbytes, List.all_cons, Bool.and_eq_true] at halpha
      have hword : isWordByte c = true := by simp [isWordByte, isAlnum, halpha.1]
      exact skip_of_isWordByte hword
  rw [keyword, hskip, matchKeyword, List.drop_left, List.take_left, if_pos ⟨rfl, hgap⟩]

theorem keyword_fixed {h : isQuiet (ascii kw) = true} (hkw : isKeyword kw = true) :
    keyword kw (sql (.fixed kw h :: ws)) = some (sql ws) :=
  keyword_append hkw rfl (atGap_sql ws)

/-- A byte at which the blanks end. -/
def isVisible (c : UInt8) : Bool := !isSpace c && c != 45 && c != 47

theorem skip_visible {c : UInt8} {rest : Bytes} (h : isVisible c = true) :
    skip (32 :: c :: rest) = c :: rest := by
  simp only [isVisible, Bool.and_eq_true, Bool.not_eq_true', bne_iff_ne] at h
  exact skip_of_head h.1.1 h.2 fun hc => absurd hc h.1.2

theorem symbol_fixed {h : isQuiet (ascii sym) = true} {c : UInt8} (hsym : ascii sym = [c])
    (hc : isVisible c = true) : symbol sym (sql (.fixed sym h :: ws)) = some (sql ws) := by
  have hskip : skip (sql (.fixed sym h :: ws)) = c :: sql ws := by
    show skip (32 :: (ascii sym ++ sql ws)) = _
    rw [hsym]
    exact skip_visible hc
  rw [symbol, hskip, matchSymbol, hsym, if_pos (by simp)]
  rfl

/-! ## Words that are not there -/

/-- The next word is one of these, or there is none. -/
def Next (heads : List String) (words : List SqlWord) : Prop :=
  ∀ w ∈ words.head?, ∃ t ∈ heads, w.text = ascii t

theorem next_nil (heads : List String) : Next heads [] := fun _ h => nomatch h

theorem next_fixed {heads : List String} {t : String} {h : isQuiet (ascii t) = true} (ht : t ∈ heads) :
    Next heads (.fixed t h :: ws) := by
  rintro w hw
  cases Option.some.inj hw
  exact ⟨t, ht, rfl⟩

theorem next_self {t : String} {h : isQuiet (ascii t) = true} : Next [t] (.fixed t h :: ws) :=
  next_fixed List.mem_cons_self

theorem Next.mono {heads heads' : List String} (h : Next heads ws) (hsub : ∀ t ∈ heads, t ∈ heads') :
    Next heads' ws := by
  intro w hw
  obtain ⟨t, ht, htext⟩ := h w hw
  exact ⟨t, hsub t ht, htext⟩

/-- The word is not the keyword: another word, or a symbol. -/
def apart (kw t : String) : Bool :=
  match ascii t with
  | [] => false
  | c :: more =>
    if isAlpha c then more.all isAlpha && (ascii t).map toUpper != (ascii kw).map toUpper
    else isVisible c

theorem keyword_eq_none_of_head {c : UInt8} {s rest : Bytes} (hs : skip s = c :: rest)
    (hc : isAlpha c = false) (hkw : isKeyword kw = true) : keyword kw s = none := by
  obtain ⟨hne, halpha⟩ := isKeyword_iff.1 hkw
  rw [keyword, hs, matchKeyword]
  refine if_neg ?_
  rintro ⟨hmatch, -⟩
  cases hbytes : ascii kw with
  | nil => exact hne hbytes
  | cons d more =>
    rw [hbytes] at hmatch halpha
    have hhead : toUpper c = toUpper d := (List.cons.inj hmatch).1
    rw [List.all_cons, Bool.and_eq_true] at halpha
    rw [← isAlpha_toUpper, hhead, isAlpha_toUpper, halpha.1] at hc
    cases hc

theorem keyword_none {heads : List String} (h : Next heads ws) (hheads : heads.all (apart kw) = true)
    (hkw : isKeyword kw = true) : keyword kw (sql ws) = none := by
  cases ws with
  | nil => exact keyword_eq_none (isKeyword_iff.1 hkw).1 rfl
  | cons w ws =>
    obtain ⟨t, ht, htext⟩ := h w rfl
    have hapart := List.all_eq_true.1 hheads t ht
    rw [apart] at hapart
    rw [sql_cons]
    cases hbytes : ascii t with
    | nil =>
      rw [hbytes] at hapart
      cases hapart
    | cons c more =>
      rw [hbytes] at hapart
      dsimp only at hapart
      split_ifs at hapart with halpha
      · -- two words in the same place would be the same
        simp only [Bool.and_eq_true, bne_iff_ne] at hapart
        have hall : (ascii t).all isAlpha = true := by
          rw [hbytes, List.all_cons, halpha, hapart.1]
          rfl
        have ht : isKeyword t = true :=
          isKeyword_iff.2 ⟨by rw [hbytes]; exact List.cons_ne_nil _ _, hall⟩
        exact keyword_eq_none_of_keyword (keyword_append ht htext (atGap_sql ws)) hall
          (isKeyword_iff.1 hkw).2 (by rw [hbytes]; exact hapart.2)
      · rw [htext, hbytes]
        exact keyword_eq_none_of_head (skip_visible hapart) (Bool.eq_false_iff.2 halpha) hkw

/-- The symbol is not the one with which the word begins. -/
def startsApart (sym t : String) : Bool :=
  match ascii t with
  | [] => false
  | c :: _ => isVisible c && some c != (ascii sym).head?

theorem symbol_eq_none_of_head {c : UInt8} {s rest : Bytes} (hs : skip s = c :: rest)
    (hne : ascii sym ≠ []) (hc : some c ≠ (ascii sym).head?) : symbol sym s = none := by
  rw [symbol, hs, matchSymbol]
  cases hbytes : ascii sym with
  | nil => exact absurd hbytes hne
  | cons d more =>
    rw [hbytes] at hc
    refine if_neg ?_
    rw [List.isPrefixOf_iff_prefix, List.cons_prefix_cons]
    rintro ⟨rfl, -⟩
    exact hc rfl

theorem symbol_none {heads : List String} (h : Next heads ws)
    (hheads : heads.all (startsApart sym) = true) (hne : ascii sym ≠ []) :
    symbol sym (sql ws) = none := by
  cases ws with
  | nil =>
    rw [symbol, show skip (sql []) = [] from rfl, matchSymbol, if_neg]
    rw [List.isPrefixOf_iff_prefix, List.prefix_nil]
    exact hne
  | cons w ws =>
    obtain ⟨t, ht, htext⟩ := h w rfl
    have hapart := List.all_eq_true.1 hheads t ht
    rw [startsApart] at hapart
    rw [sql_cons, htext]
    cases hbytes : ascii t with
    | nil =>
      rw [hbytes] at hapart
      cases hapart
    | cons c more =>
      rw [hbytes] at hapart
      simp only [Bool.and_eq_true, bne_iff_ne] at hapart
      exact symbol_eq_none_of_head (skip_visible hapart.1) hne hapart.2

/-- A name does not begin with a symbol. -/
theorem symbol_name (n : BareName) {c : UInt8} (hsym : ascii sym = [c]) (hc : isWordByte c = false) :
    symbol sym (sql (.name n :: ws)) = none := by
  obtain ⟨_ | ⟨d, more⟩, hname⟩ := n
  · cases hname
  · have hword : isWordByte d = true := (List.all_cons.symm.trans (isWordByte_of_isBareName hname) |>
      fun h => (Bool.and_eq_true_iff.1 h).1)
    have hskip : skip (sql (.name ⟨d :: more, hname⟩ :: ws)) = d :: (more ++ sql ws) :=
      skip_of_isWordByte hword
    refine symbol_eq_none_of_head hskip (by rw [hsym]; exact List.cons_ne_nil _ _) ?_
    rw [hsym]
    rintro hhead
    cases hhead
    rw [hword] at hc
    cases hc

end

end Sql

end OpenDB
