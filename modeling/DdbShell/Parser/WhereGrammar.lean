import DdbShell.Lib.Infix
import DdbShell.Expressions.LogicalExpression

/-!
The WHERE productions of the grammar and their actions. A `SourceExpr` is a
clause as the declared precedences read it: the index is the loosest operator
outside parentheses, so an OR under a NOT or an AND can only be written in
parentheses and chains nest to the left. `build` runs the actions.

`Grown` collects what every tree built this way satisfies; the rendering and
planning results rest on it and on nothing else about the grammar.
-/

namespace DdbShell

open Infix (Prec)

/-- The lexemes of `comparison_op`. Both `!=` and `<>` are `T_NOT_EQUAL`
tokens, told apart only by their text. -/
inductive ComparisonToken where
  | op (op : ComparisonOp)
  | bangEqual
  deriving DecidableEq, Repr

/-- The `LogicalComparison` constructor: `!=` becomes a negated `=`. -/
def logicalComparison (lhs : String) (op : ComparisonToken) (rhs : Value) :
    LogicalExpression :=
  match op with
  | .bangEqual => .leaf true false ⟨lhs, .comparison .equal rhs⟩
  | .op op => .leaf false false ⟨lhs, .comparison op rhs⟩

/-- The `LogicalAttributeExists` constructor. -/
def logicalAttributeExists (lhs : String) (sense : Bool) : LogicalExpression :=
  .leaf (!sense) false ⟨lhs, .attributeExists⟩

/-- The alternatives of `logical_expression_element`. A value list has at
least one entry. -/
inductive Element where
  | comparison (lhs : String) (op : ComparisonToken) (rhs : Value)
  | isNull (lhs : String)
  | isNotNull (lhs : String)
  | between (lhs : String) (lo hi : Value)
  | isIn (lhs : String) (first : Value) (rest : List Value)
  | attributeExists (lhs : String)
  | attributeNotExists (lhs : String)
  | attributeType (lhs : String) (type : ScalarType)
  | beginsWith (lhs start : String)
  | contains (lhs operand : String)
  | size (lhs : String) (op : ComparisonToken) (rhs : Value)
  deriving DecidableEq, Repr

/-- The clause `lhs = <null>` that IS NULL and IS NOT NULL desugar to. -/
def isNullLeaf (lhs : String) : Leaf := ⟨lhs, .comparison .equal .NUL⟩

namespace Element

def build : Element → LogicalExpression
  | .comparison lhs op rhs => logicalComparison lhs op rhs
  | .isNull lhs => logicalComparison lhs (.op .equal) .NUL
  | .isNotNull lhs =>
      LogicalExpression.makeAnd (logicalComparison lhs (.op .equal) .NUL).negate
        (logicalAttributeExists lhs true)
  | .between lhs lo hi => .leaf false false ⟨lhs, .between lo hi⟩
  | .isIn lhs first rest => .leaf false false ⟨lhs, .isIn (first :: rest)⟩
  | .attributeExists lhs => logicalAttributeExists lhs true
  | .attributeNotExists lhs => logicalAttributeExists lhs false
  | .attributeType lhs type => .leaf false false ⟨lhs, .attributeType type⟩
  | .beginsWith lhs start => .leaf false false ⟨lhs, .beginsWith (.S start)⟩
  | .contains lhs operand => .leaf false false ⟨lhs, .contains (.S operand)⟩
  | .size lhs op rhs => logicalComparison ("size(" ++ lhs ++ ")") op rhs

/-- What the element says, its documented desugaring spelled out. -/
def holds (v : Leaf → Bool) : Element → Bool
  | .comparison lhs (.op op) rhs => v ⟨lhs, .comparison op rhs⟩
  | .comparison lhs .bangEqual rhs => !v ⟨lhs, .comparison .equal rhs⟩
  | .isNull lhs => v (isNullLeaf lhs)
  | .isNotNull lhs => !v (isNullLeaf lhs) && v ⟨lhs, .attributeExists⟩
  | .between lhs lo hi => v ⟨lhs, .between lo hi⟩
  | .isIn lhs first rest => v ⟨lhs, .isIn (first :: rest)⟩
  | .attributeExists lhs => v ⟨lhs, .attributeExists⟩
  | .attributeNotExists lhs => !v ⟨lhs, .attributeExists⟩
  | .attributeType lhs type => v ⟨lhs, .attributeType type⟩
  | .beginsWith lhs start => v ⟨lhs, .beginsWith (.S start)⟩
  | .contains lhs operand => v ⟨lhs, .contains (.S operand)⟩
  | .size lhs (.op op) rhs => v ⟨"size(" ++ lhs ++ ")", .comparison op rhs⟩
  | .size lhs .bangEqual rhs => !v ⟨"size(" ++ lhs ++ ")", .comparison .equal rhs⟩

end Element

/-- A `logical_expression` under the declared precedences. -/
inductive SourceExpr : Prec → Type where
  | element : Element → SourceExpr .not
  | not : SourceExpr .not → SourceExpr .not
  | paren : SourceExpr .or → SourceExpr .not
  | ofNot : SourceExpr .not → SourceExpr .and
  | and : SourceExpr .and → SourceExpr .not → SourceExpr .and
  | ofAnd : SourceExpr .and → SourceExpr .or
  | or : SourceExpr .or → SourceExpr .and → SourceExpr .or

namespace SourceExpr

/-- The grammar actions. -/
def build : {p : Prec} → SourceExpr p → LogicalExpression
  | _, .element e => e.build
  | _, .not e => e.build.negate
  | _, .paren e => e.build.setParenGroup
  | _, .ofNot e => e.build
  | _, .and l r => LogicalExpression.makeAnd l.build r.build
  | _, .ofAnd e => e.build
  | _, .or l r => LogicalExpression.makeOr l.build r.build

def holds (v : Leaf → Bool) : {p : Prec} → SourceExpr p → Bool
  | _, .element e => e.holds v
  | _, .not e => !e.holds v
  | _, .paren e => e.holds v
  | _, .ofNot e => e.holds v
  | _, .and l r => l.holds v && r.holds v
  | _, .ofAnd e => e.holds v
  | _, .or l r => l.holds v || r.holds v

end SourceExpr

namespace LogicalExpression

/-! ### Truth values of the actions -/

@[simp] theorem allHold_append (v : Leaf → Bool) (xs ys : List LogicalExpression) :
    allHold v (xs ++ ys) = (allHold v xs && allHold v ys) := by
  induction xs with
  | nil => simp [allHold]
  | cons x xs ih => simp [allHold, ih, Bool.and_assoc]

@[simp] theorem anyHolds_append (v : Leaf → Bool) (xs ys : List LogicalExpression) :
    anyHolds v (xs ++ ys) = (anyHolds v xs || anyHolds v ys) := by
  induction xs with
  | nil => simp [anyHolds]
  | cons x xs ih => simp [anyHolds, ih, Bool.or_assoc]

@[simp] theorem holds_negate (v : Leaf → Bool) (e : LogicalExpression) :
    e.negate.holds v = !e.holds v := by
  cases e <;> simp [negate, holds]

@[simp] theorem holds_setParenGroup (v : Leaf → Bool) (e : LogicalExpression) :
    e.setParenGroup.holds v = e.holds v := by
  cases e <;> rfl

/-- Two negated AND nodes without parentheses, which `makeAnd` splices. -/
def Clash (e1 e2 : LogicalExpression) : Prop :=
  ∃ xs ys, e1 = .and true false xs ∧ e2 = .and true false ys

/-- Splicing two negated conjunctions yields the negation of both together,
which is the disjunction of the operands. -/
theorem holds_makeAnd_of_clash (v : Leaf → Bool) {e1 e2 : LogicalExpression}
    (h : Clash e1 e2) : (makeAnd e1 e2).holds v = (e1.holds v || e2.holds v) := by
  obtain ⟨xs, ys, rfl, rfl⟩ := h
  simp [makeAnd, isNegated, isAnd, isParenGroup, pushBack, exprlist, holds]

theorem holds_makeAnd (v : Leaf → Bool) {e1 e2 : LogicalExpression}
    (h : ¬ Clash e1 e2) : (makeAnd e1 e2).holds v = (e1.holds v && e2.holds v) := by
  unfold makeAnd
  split
  · rename_i hsplice
    cases e1 <;> cases e2 <;> simp_all [isAnd, isNegated, isParenGroup]
    case and.and n1 p1 xs n2 p2 ys =>
      cases n2 with
      | false => simp [pushBack, exprlist, holds]
      | true => exact absurd ⟨xs, ys, rfl, rfl⟩ h
  · split
    · rename_i happend
      cases e1 <;> simp_all [isAnd, isNegated, pushBack, holds, allHold]
    · simp [holds, allHold]

theorem holds_makeOr (v : Leaf → Bool) {e1 e2 : LogicalExpression}
    (h : e1.isOr → e1.isNegated → e1.isParenGroup) :
    (makeOr e1 e2).holds v = (e1.holds v || e2.holds v) := by
  unfold makeOr
  split
  · rename_i hsplice
    cases e1 <;> cases e2 <;> simp_all [isOr, isNegated, isParenGroup]
    case or.or n1 p1 xs n2 p2 ys => simp [pushBack, exprlist, holds]
  · split
    · rename_i happend
      cases e1 <;> simp_all [isOr, isNegated, pushBack, holds, anyHolds]
    · simp [holds, anyHolds]

end LogicalExpression

@[simp] theorem Element.holds_build (v : Leaf → Bool) (e : Element) :
    e.build.holds v = e.holds v := by
  cases e with
  | isNotNull lhs =>
      simp [Element.build, Element.holds, logicalComparison, logicalAttributeExists,
        LogicalExpression.makeAnd, LogicalExpression.negate, LogicalExpression.isNegated,
        LogicalExpression.isAnd, LogicalExpression.holds, LogicalExpression.allHold, isNullLeaf]
  | comparison lhs op rhs =>
      cases op <;> simp [Element.build, Element.holds, logicalComparison, LogicalExpression.holds]
  | size lhs op rhs =>
      cases op <;> simp [Element.build, Element.holds, logicalComparison, LogicalExpression.holds]
  | _ =>
      simp [Element.build, Element.holds, logicalComparison, logicalAttributeExists,
        LogicalExpression.holds, isNullLeaf]

end DdbShell
