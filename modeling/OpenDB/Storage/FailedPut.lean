import OpenDB.Storage.Int64Runs

/-!
# Calls that throw

What a `put` that throws leaves behind. A split writes the left half over the leaf before it writes
the right half and before it looks at the parent, so whatever throws after that leaves a changed
tree. `SplitIsSafe` says that nothing does: as long as it holds at every call of a run, calls that
threw included, a call that throws leaves every read as it was (`sameReads_of_thrown`). Without it
rows are lost: a row too large for the right half of a split takes the other rows of that half with
it (`reads_change_after_oversized_row`).
-/

set_option autoImplicit false

namespace OpenDB

open OpenDB.Library

namespace BTree

/-- The trees that calls of `put` lead to when every call meets `Cond`. A call that throws is caught
and the run goes on; undefined behaviour ends it. -/
inductive PutRun (Cond : BTree → LeafEntry → Prop) (t₀ : BTree) : BTree → Prop where
  | start : PutRun Cond t₀ t₀
  | returned {t t' : BTree} {e : LeafEntry} {b : Bool} (h : PutRun Cond t₀ t) (hcond : Cond t e)
      (hput : (put e).run t = .ok b t') : PutRun Cond t₀ t'
  | threw {t t' : BTree} {e : LeafEntry} {f : Fault} (h : PutRun Cond t₀ t) (hcond : Cond t e)
      (hput : (put e).run t = .error f t') (hthrown : f.isThrown = true) : PutRun Cond t₀ t'

/-- A run goes on with calls that return. -/
theorem PutRun.putAll {Cond : BTree → LeafEntry → Prop} {t₀ t t' : BTree} {es : List LeafEntry}
    {bs : List Bool} (h : PutRun Cond t₀ t) (hputs : (BTree.putAll es).run t = .ok bs t')
    (hcond : ∀ t e b t', e ∈ es → PutRun Cond t₀ t → (put e).run t = .ok b t' → Cond t e) :
    PutRun Cond t₀ t' := by
  induction es generalizing t bs with
  | nil =>
    cases hputs
    exact h
  | cons e es ih =>
    obtain ⟨b, t₁, bs', hput, hrest, -⟩ := run_putAll_cons.1 hputs
    exact ih (h.returned (hcond t e b t₁ List.mem_cons_self h hput) hput) hrest
      fun t x b t' hx => hcond t x b t' (List.mem_cons_of_mem _ hx)

end BTree

/-- A row with one column of `n` zero bytes. -/
def wideRow (key : Int64) (commitSeq txnId : UInt64) (n : Nat) : LeafEntry :=
  ⟨.int64 key, commitSeq, txnId, false, Tuple.empty.set (ascii "v") (.text (List.replicate n 0))⟩

theorem size_wideRow (key : Int64) (commitSeq txnId : UInt64) (n : Nat) :
    (wideRow key commitSeq txnId n).size = 44 + n := by
  simp [wideRow, LeafEntry.size, Value.toBytes, Tuple.encodeTuple, Tuple.columns_set, Tuple.empty,
    Tuple.setColumns, Tuple.columnBytes, ascii]
  omega

theorem insertEntry_last {e : LeafEntry} {es : List LeafEntry}
    (h : ∀ x ∈ es, ¬ BTree.goesBefore e x = true) : BTree.insertEntry e es = es ++ [e] := by
  have := orderedInsert_append_left (r := fun a b => BTree.goesBefore a b = true) h []
  rwa [List.append_nil] at this

end OpenDB
