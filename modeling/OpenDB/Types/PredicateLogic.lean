import OpenDB.Library.Kleene
import OpenDB.Types.Command

/-!
# Predicates in three-valued logic

`PredicateNode::evaluate` knows two values. What SQL says of a predicate is one of three: a comparison
with a null is unknown, and the connectives are those of Kleene. A column that is not there counts as
a null.

The code takes unknown for false at the leaves already and stops at the first child that decides. As
the trees have no negation, it finds true exactly the trees that are true (`evaluate_iff_truth`).
-/

set_option autoImplicit false

namespace OpenDB

open OpenDB.Library

/-- What a comparison says of two values that are not null, by their order. -/
def ComparisonOp.admits : ComparisonOp → Ordering → Bool
  | .equals, order => order == .eq
  | .notEquals, order => order != .eq
  | .less, order => order == .lt
  | .lessEquals, order => order == .lt || order == .eq
  | .greater, order => order == .gt
  | .greaterEquals, order => order == .gt || order == .eq
  | .isNull, _ => false
  | .isNotNull, _ => true

namespace PredicateNode

/-- A comparison with a null is unknown; whether a value is null is always known. -/
def compareTruth (op : ComparisonOp) (operand v : Value) : Truth :=
  match op with
  | .isNull => .ofBool v.isNull
  | .isNotNull => .ofBool (!v.isNull)
  | op => if v.isNull || operand.isNull then .unknown else .ofBool (op.admits (v.compare operand))

mutual

/-- The value of a predicate for a row, in three-valued logic. -/
def truth (row : Tuple) : PredicateNode → Truth
  | .comparison column op operand => compareTruth op operand ((row.maybeGet column).getD .null)
  | .logical .and children => Truth.all (truths row children)
  | .logical .or children => Truth.any (truths row children)

def truths (row : Tuple) : List PredicateNode → List Truth
  | [] => []
  | c :: cs => truth row c :: truths row cs

end

/-- A leaf of the code is a leaf of the logic with unknown read as false. -/
theorem compareColumn_eq (op : ComparisonOp) (operand : Value) (v : Option Value) :
    compareColumn op operand v = (compareTruth op operand (v.getD .null)).holds := by
  cases v with
  | none => cases op <;> rfl
  | some v =>
    -- a null on either side: both readings are false
    have hnull : ∀ ordered : Bool, (!v.isNull && !operand.isNull && ordered) =
        (if v.isNull || operand.isNull then Truth.unknown else Truth.ofBool ordered).holds := by
      intro ordered
      cases v.isNull <;> cases operand.isNull <;> cases ordered <;> rfl
    -- `<=` and `>=` are written with the opposite order in the code
    have hle : ∀ order : Ordering, (order != .gt) = (order == .lt || order == .eq) := by
      intro order
      cases order <;> rfl
    have hge : ∀ order : Ordering, (order != .lt) = (order == .gt || order == .eq) := by
      intro order
      cases order <;> rfl
    cases op with
    | equals => exact hnull _
    | notEquals => exact hnull _
    | less => exact hnull _
    | lessEquals =>
      change (!v.isNull && !operand.isNull && v.compare operand != .gt) = _
      rw [hle]
      exact hnull _
    | greater => exact hnull _
    | greaterEquals =>
      change (!v.isNull && !operand.isNull && v.compare operand != .lt) = _
      rw [hge]
      exact hnull _
    | isNull => exact (Truth.holds_ofBool _).symm
    | isNotNull => exact (Truth.holds_ofBool _).symm

mutual

/-- The evaluation is the two-valued reading of the three-valued one. -/
theorem evaluate_eq (row : Tuple) : ∀ node : PredicateNode, evaluate row node = (truth row node).holds
  | .comparison column op operand => by
    rw [evaluate, truth, compareColumn_eq]
  | .logical .and children => by
    rw [evaluate, truth, Truth.holds_all, evaluateAll_eq row children]
  | .logical .or children => by
    rw [evaluate, truth, Truth.holds_any, evaluateAny_eq row children]

/-- The first child that is not true settles a conjunction. -/
theorem evaluateAll_eq (row : Tuple) :
    ∀ children : List PredicateNode, evaluateAll row children = (truths row children).all Truth.holds
  | [] => by
    rw [evaluateAll, truths, List.all_nil]
  | c :: cs => by
    rw [evaluateAll, truths, List.all_cons, evaluate_eq row c, evaluateAll_eq row cs]
    -- the code returns at a child that is false, where the conjunction is false as well
    cases (truth row c).holds <;> rfl

/-- The first child that is true settles a disjunction. -/
theorem evaluateAny_eq (row : Tuple) :
    ∀ children : List PredicateNode, evaluateAny row children = (truths row children).any Truth.holds
  | [] => by
    rw [evaluateAny, truths, List.any_nil]
  | c :: cs => by
    rw [evaluateAny, truths, List.any_cons, evaluate_eq row c, evaluateAny_eq row cs]
    cases (truth row c).holds <;> rfl

end

/-- A tree is found true if and only if it is true in three-valued logic. -/
theorem evaluate_iff_truth (row : Tuple) (node : PredicateNode) :
    node.evaluate row = true ↔ node.truth row = .yes := by
  rw [evaluate_eq, Truth.holds_iff]

end PredicateNode

end OpenDB
