import DdbShell.Expressions.LogicalExpression
import DdbShell.Expressions.SymbolTable

/-!
The expression strings a tree renders to, through a symbol table: the whole
tree for a Scan filter, the two halves of a Query, and the residual condition
of a single write. Each public method wraps a `do` method and puts `NOT (...)`
around a negated node's text; the three partial renderings leave an empty text
alone, and the same wrapper runs at every level of the tree.
-/

namespace DdbShell

open SymbolTable

/-- Concatenate with a separator between consecutive parts. -/
def joinWith (sep : String) : List String → String
  | [] => ""
  | [part] => part
  | part :: next :: rest => part ++ sep ++ joinWith sep (next :: rest)

def newValues : List Value → Alias (List String)
  | [] => return []
  | value :: rest => do
      let token ← newValue value
      return token :: (← newValues rest)

namespace Leaf

def doSerialize (l : Leaf) : Alias String := do
  let lhs ← newAttribute l.lhs
  match l.predicate with
  | .comparison op rhs => return lhs ++ " " ++ op.text ++ " " ++ (← newValue rhs)
  | .between lo hi =>
      let lo ← newValue lo
      let hi ← newValue hi
      return lhs ++ " BETWEEN " ++ lo ++ " AND " ++ hi
  | .beginsWith start => return "begins_with(" ++ lhs ++ ", " ++ (← newValue start) ++ ")"
  | .isIn rhs => return lhs ++ " IN (" ++ joinWith ", " (← newValues rhs) ++ ")"
  | .contains operand => return "contains(" ++ lhs ++ ", " ++ (← newValue operand) ++ ")"
  | .attributeType type =>
      return "attribute_type(" ++ lhs ++ ", " ++ (← newValue (.S type.text)) ++ ")"
  | .attributeExists => return "attribute_exists(" ++ lhs ++ ")"

/-- Whether `do_query_key_condition_expression` renders the leaf. -/
def inKeyCondition (ks : KeySchemaView) (negate : Bool) (l : Leaf) : Bool :=
  match l.predicate with
  | .comparison _ _ => ks.pk.contains l.lhs || ks.sk.contains l.lhs
  | .between _ _ | .beginsWith _ => ks.sk.contains l.lhs && !negate
  | .isIn _ | .contains _ | .attributeType _ | .attributeExists => false

/-- Whether `do_query_filter_expression` renders the leaf. -/
def inFilter (ks : KeySchemaView) (_negate : Bool) (l : Leaf) : Bool :=
  match l.predicate with
  | .comparison _ _ => !ks.pk.contains l.lhs && !ks.sk.contains l.lhs
  | .between _ _ | .beginsWith _ => !ks.sk.contains l.lhs
  | .isIn _ | .contains _ | .attributeType _ | .attributeExists => true

/-- Whether `do_update_delete_condition_check` renders the leaf at the top,
that is, outside every OR. -/
def inCondition (pk rk : String) (negate : Bool) (l : Leaf) : Bool :=
  match l.predicate with
  | .comparison _ _ | .between _ _ | .beginsWith _ => !((l.lhs = pk || l.lhs = rk) && !negate)
  | .isIn _ | .contains _ | .attributeType _ | .attributeExists => true

def doQueryKeyConditionExpression (ks : KeySchemaView) (negate : Bool) (l : Leaf) :
    Alias String :=
  if l.inKeyCondition ks negate then l.doSerialize else return ""

def doQueryFilterExpression (ks : KeySchemaView) (negate : Bool) (l : Leaf) : Alias String :=
  if l.inFilter ks negate then l.doSerialize else return ""

def doUpdateDeleteConditionCheck (pk rk : String) (top negate : Bool) (l : Leaf) :
    Alias String :=
  if !top then l.doSerialize
  else if l.inCondition pk rk negate then l.doSerialize else return ""

end Leaf

namespace LogicalExpression

def negatedText (negate : Bool) (rv : String) : String :=
  if negate then "NOT (" ++ rv ++ ")" else rv

/-- The wrapper of the partial renderings. -/
def negatedIfPresent (negate : Bool) (rv : String) : String :=
  if rv ≠ "" then negatedText negate rv else rv

def parenthesised (parens : Bool) (rv : String) : String :=
  if parens then "(" ++ rv ++ ")" else rv

mutual

def doSerialize : LogicalExpression → Alias String
  | .leaf _ _ l => l.doSerialize
  | .and _ parens exprlist => do
      return parenthesised parens (joinWith " AND " (← serializeAll exprlist))
  | .or _ parens exprlist => do
      return parenthesised parens (joinWith " OR " (← serializeAll exprlist))

def serializeAll : List LogicalExpression → Alias (List String)
  | [] => return []
  | e :: es => do
      let part := negatedText e.isNegated (← doSerialize e)
      return part :: (← serializeAll es)

end

def serialize (e : LogicalExpression) : Alias String := do
  return negatedText e.isNegated (← e.doSerialize)

mutual

def doQueryKeyConditionExpression (ks : KeySchemaView) : LogicalExpression → Alias String
  | .leaf negate _ l => l.doQueryKeyConditionExpression ks negate
  | .and _ parens exprlist => do
      let parts ← queryKeyConditionAll ks exprlist
      return parenthesised parens (joinWith " AND " (parts.filter (· ≠ "")))
  | .or .. => return ""

def queryKeyConditionAll (ks : KeySchemaView) : List LogicalExpression → Alias (List String)
  | [] => return []
  | e :: es => do
      let part := negatedIfPresent e.isNegated (← doQueryKeyConditionExpression ks e)
      return part :: (← queryKeyConditionAll ks es)

end

def queryKeyConditionExpression (ks : KeySchemaView) (e : LogicalExpression) : Alias String := do
  return negatedIfPresent e.isNegated (← e.doQueryKeyConditionExpression ks)

mutual

/-- An OR goes to the filter as a whole. -/
def doQueryFilterExpression (ks : KeySchemaView) : LogicalExpression → Alias String
  | .leaf negate _ l => l.doQueryFilterExpression ks negate
  | .and _ parens exprlist => do
      let parts ← queryFilterAll ks exprlist
      return parenthesised parens (joinWith " AND " (parts.filter (· ≠ "")))
  | .or negate parens exprlist => doSerialize (.or negate parens exprlist)

def queryFilterAll (ks : KeySchemaView) : List LogicalExpression → Alias (List String)
  | [] => return []
  | e :: es => do
      let part := negatedIfPresent e.isNegated (← doQueryFilterExpression ks e)
      return part :: (← queryFilterAll ks es)

end

def queryFilterExpression (ks : KeySchemaView) (e : LogicalExpression) : Alias String := do
  return negatedIfPresent e.isNegated (← e.doQueryFilterExpression ks)

mutual

/-- AND passes `top` on to its children whatever its own negation; below an OR
nothing is at the top any more. -/
def doUpdateDeleteConditionCheck (pk rk : String) (top : Bool) :
    LogicalExpression → Alias String
  | .leaf negate _ l => l.doUpdateDeleteConditionCheck pk rk top negate
  | .and _ parens exprlist => do
      let parts ← updateDeleteConditionAll pk rk top exprlist
      return parenthesised parens (joinWith " AND " (parts.filter (· ≠ "")))
  | .or _ parens exprlist => do
      let parts ← updateDeleteConditionAll pk rk false exprlist
      return parenthesised parens (joinWith " OR " (parts.filter (· ≠ "")))

def updateDeleteConditionAll (pk rk : String) (top : Bool) :
    List LogicalExpression → Alias (List String)
  | [] => return []
  | e :: es => do
      let part := negatedIfPresent e.isNegated (← doUpdateDeleteConditionCheck pk rk top e)
      return part :: (← updateDeleteConditionAll pk rk top es)

end

def updateDeleteConditionCheck (pk rk : String) (top : Bool) (e : LogicalExpression) :
    Alias String := do
  return negatedIfPresent e.isNegated (← e.doUpdateDeleteConditionCheck pk rk top)

end LogicalExpression

end DdbShell
