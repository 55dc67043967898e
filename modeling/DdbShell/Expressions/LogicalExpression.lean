import DdbShell.Value

/-!
The WHERE-clause tree. Every node carries the two flags the grammar actions
set, `negate` and `parens`; an AND or OR node owns a list of children, any
other node is a leaf predicate on one operand text. The flatten factories
`makeAnd` and `makeOr` and the probes the planner composes follow the source
node class by node class.
-/

namespace DdbShell

/-- The operators a comparison node can hold. `!=` is not among them: the
constructor stores it as a negated `=`. -/
inductive ComparisonOp where
  | equal
  | greaterThan
  | greaterThanOrEqual
  | lessThan
  | lessThanOrEqual
  | notEqual
  deriving DecidableEq, Repr

def ComparisonOp.text : ComparisonOp → String
  | .equal => "="
  | .greaterThan => ">"
  | .greaterThanOrEqual => ">="
  | .lessThan => "<"
  | .lessThanOrEqual => "<="
  | .notEqual => "<>"

/-- The scalar-type token of `attribute_type`. -/
inductive ScalarType where
  | n
  | s
  | b
  deriving DecidableEq, Repr

def ScalarType.text : ScalarType → String
  | .n => "N"
  | .s => "S"
  | .b => "B"

/-- What a leaf node says about its operand, one constructor a node class. -/
inductive Predicate where
  | comparison (op : ComparisonOp) (rhs : Value)
  | between (lo hi : Value)
  | beginsWith (start : Value)
  | isIn (rhs : List Value)
  | contains (operand : Value)
  | attributeType (type : ScalarType)
  | attributeExists
  deriving DecidableEq, Repr

structure Leaf where
  lhs : String
  predicate : Predicate
  deriving DecidableEq, Repr

inductive LogicalExpression where
  | leaf (negate parens : Bool) (leaf : Leaf)
  | and (negate parens : Bool) (exprlist : List LogicalExpression)
  | or (negate parens : Bool) (exprlist : List LogicalExpression)
  deriving Repr

namespace LogicalExpression

/-- Induction over a tree, with the hypothesis for every child at once. -/
theorem induct {motive : LogicalExpression → Prop}
    (leaf : ∀ negate parens l, motive (.leaf negate parens l))
    (and : ∀ negate parens exprlist, (∀ e ∈ exprlist, motive e) →
      motive (.and negate parens exprlist))
    (or : ∀ negate parens exprlist, (∀ e ∈ exprlist, motive e) →
      motive (.or negate parens exprlist))
    (e : LogicalExpression) : motive e :=
  LogicalExpression.rec (motive_2 := fun exprlist => ∀ e ∈ exprlist, motive e)
    leaf and or (fun _ h => nomatch h)
    (fun _ _ head tail _ h => by
      rcases List.mem_cons.mp h with rfl | h
      · exact head
      · exact tail _ h) e

/-! ### Negation and grouping state -/

def isNegated : LogicalExpression → Bool
  | .leaf negate _ _ | .and negate _ _ | .or negate _ _ => negate

def negate : LogicalExpression → LogicalExpression
  | .leaf negate parens l => .leaf (!negate) parens l
  | .and negate parens exprlist => .and (!negate) parens exprlist
  | .or negate parens exprlist => .or (!negate) parens exprlist

def setParenGroup : LogicalExpression → LogicalExpression
  | .leaf negate _ l => .leaf negate true l
  | .and negate _ exprlist => .and negate true exprlist
  | .or negate _ exprlist => .or negate true exprlist

def isParenGroup : LogicalExpression → Bool
  | .leaf _ parens _ | .and _ parens _ | .or _ parens _ => parens

/-- `type() == "CLogicalAnd"` -/
def isAnd : LogicalExpression → Bool
  | .and .. => true
  | _ => false

/-- `type() == "CLogicalOr"` -/
def isOr : LogicalExpression → Bool
  | .or .. => true
  | _ => false

def exprlist : LogicalExpression → List LogicalExpression
  | .leaf .. => []
  | .and _ _ exprlist | .or _ _ exprlist => exprlist

/-- Push children onto a node in place, its flags unchanged. -/
def pushBack : LogicalExpression → List LogicalExpression → LogicalExpression
  | .leaf negate parens l, _ => .leaf negate parens l
  | .and negate parens exprlist, more => .and negate parens (exprlist ++ more)
  | .or negate parens exprlist, more => .or negate parens (exprlist ++ more)

/-! ### The flatten factories -/

def makeAnd (e1 e2 : LogicalExpression) : LogicalExpression :=
  if e1.isNegated = e2.isNegated ∧ e1.isAnd ∧ e2.isAnd ∧
      !e1.isParenGroup ∧ !e2.isParenGroup then
    e1.pushBack e2.exprlist
  else if !e1.isNegated ∧ e1.isAnd then
    e1.pushBack [e2]
  else
    .and false false [e1, e2]

def makeOr (e1 e2 : LogicalExpression) : LogicalExpression :=
  if e1.isNegated = e2.isNegated ∧ e1.isOr ∧ e2.isOr ∧
      !e1.isParenGroup ∧ !e2.isParenGroup then
    e1.pushBack e2.exprlist
  else if !e1.isNegated ∧ e1.isOr then
    e1.pushBack [e2]
  else
    .or false false [e1, e2]

/-! ### Truth value under an assignment to the leaves -/

mutual

def holds (v : Leaf → Bool) : LogicalExpression → Bool
  | .leaf negate _ l => xor negate (v l)
  | .and negate _ exprlist => xor negate (allHold v exprlist)
  | .or negate _ exprlist => xor negate (anyHolds v exprlist)

def allHold (v : Leaf → Bool) : List LogicalExpression → Bool
  | [] => true
  | e :: es => e.holds v && allHold v es

def anyHolds (v : Leaf → Bool) : List LogicalExpression → Bool
  | [] => false
  | e :: es => e.holds v || anyHolds v es

end

/-! ### Counting probes -/

mutual

/-- Count of leaf nodes. -/
def count : LogicalExpression → Nat
  | .leaf .. => 1
  | .and _ _ exprlist | .or _ _ exprlist => countAll exprlist

def countAll : List LogicalExpression → Nat
  | [] => 0
  | e :: es => e.count + countAll es

end

mutual

/-- Count of leaf nodes whose left-hand side is `lhs`. -/
def countLhs (lhs : String) : LogicalExpression → Nat
  | .leaf _ _ l => if l.lhs = lhs then 1 else 0
  | .and _ _ exprlist | .or _ _ exprlist => countLhsAll lhs exprlist

def countLhsAll (lhs : String) : List LogicalExpression → Nat
  | [] => 0
  | e :: es => e.countLhs lhs + countLhsAll lhs es

end

/-- A comparison contributes to a GetItem/Update/Delete key as a non-negated
`=`; no other leaf class does. -/
def leafCountGudKey (lhs : String) (negate : Bool) (l : Leaf) : Nat :=
  match l.predicate with
  | .comparison op _ => if l.lhs = lhs ∧ !negate ∧ op = .equal then 1 else 0
  | _ => 0

mutual

/-- OR inherits the base answer 0. -/
def countGudKey (lhs : String) : LogicalExpression → Nat
  | .leaf negate _ l => leafCountGudKey lhs negate l
  | .and _ _ exprlist => countGudKeyAll lhs exprlist
  | .or .. => 0

def countGudKeyAll (lhs : String) : List LogicalExpression → Nat
  | [] => 0
  | e :: es => e.countGudKey lhs + countGudKeyAll lhs es

end

end LogicalExpression

/-- A primary-key map, ordered by attribute name. -/
abbrev KeyMap := Std.TreeMap String Value

/-- `rv.insert(part.begin(), part.end())`: entries already present stay. -/
def KeyMap.insertRange (rv part : KeyMap) : KeyMap :=
  part.toList.foldl (fun rv entry => rv.insertIfNew entry.1 entry.2) rv

namespace LogicalExpression

def leafGetGudKey (pk rk : String) (negate : Bool) (l : Leaf) : KeyMap :=
  match l.predicate with
  | .comparison _ rhs =>
      if leafCountGudKey pk negate l ≠ 0 ∨ leafCountGudKey rk negate l ≠ 0 then
        (∅ : KeyMap).insertIfNew l.lhs rhs
      else ∅
  | _ => ∅

mutual

def getGudKey (pk rk : String) : LogicalExpression → KeyMap
  | .leaf negate _ l => leafGetGudKey pk rk negate l
  | .and _ _ exprlist => getGudKeyAll pk rk ∅ exprlist
  | .or .. => ∅

def getGudKeyAll (pk rk : String) (rv : KeyMap) : List LogicalExpression → KeyMap
  | [] => rv
  | e :: es => getGudKeyAll pk rk (KeyMap.insertRange rv (e.getGudKey pk rk)) es

end

end LogicalExpression

/-- The key attributes a tree is evaluated against for a Query: every
partition-key attribute and the sort-key prefix in play. -/
structure KeySchemaView where
  pk : List String
  sk : List String
  deriving DecidableEq, Repr

def KeySchemaView.contains (ks : KeySchemaView) (name : String) : Bool :=
  ks.pk.contains name || ks.sk.contains name

namespace LogicalExpression

/-- Whether one leaf is legal inside a Query, class by class. -/
def leafQuerySafe (ks : KeySchemaView) (negate : Bool) (l : Leaf) : Bool :=
  match l.predicate with
  | .comparison op _ =>
      if !ks.pk.contains l.lhs && !ks.sk.contains l.lhs then true
      else if ks.pk.contains l.lhs then op = .equal && !negate
      else if op = .equal && negate then false
      else true
  | .between _ _ | .beginsWith _ =>
      if !ks.pk.contains l.lhs && !ks.sk.contains l.lhs then true
      else ks.sk.contains l.lhs && !negate
  | .isIn _ | .contains _ | .attributeType _ | .attributeExists =>
      !ks.pk.contains l.lhs && !ks.sk.contains l.lhs

mutual

def querySafe (ks : KeySchemaView) : LogicalExpression → Bool
  | .leaf negate _ l => leafQuerySafe ks negate l
  | .and _ _ exprlist => querySafeAll ks exprlist
  | .or negate parens exprlist =>
      ks.pk.all (fun p => (LogicalExpression.or negate parens exprlist).countLhs p = 0) &&
        (ks.sk.all (fun s => (LogicalExpression.or negate parens exprlist).countLhs s = 0) &&
          querySafeAll ks exprlist)

def querySafeAll (ks : KeySchemaView) : List LogicalExpression → Bool
  | [] => true
  | e :: es => e.querySafe ks && querySafeAll ks es

end

end LogicalExpression

end DdbShell
