import DdbShell.Expressions.Render

/-!
The WHERE wrapper: the probes that choose between GetItem, Query and Scan, the
key of a single-item request, and the expression strings of each access path.
-/

namespace DdbShell

/-- The chosen Query key plan. -/
structure QueryKeyPlan where
  pk : List String
  skPrefix : List String
  deriving DecidableEq, Repr

def QueryKeyPlan.view (plan : QueryKeyPlan) : KeySchemaView := ⟨plan.pk, plan.skPrefix⟩

structure Where where
  root : LogicalExpression

namespace Where

/-- Exactly the full base key and nothing else. -/
def canGetitem (w : Where) (pk rk : List String) : Bool :=
  match pk, rk with
  | [p], r :: _ =>
      w.root.count = 2 && (w.root.countGudKey p = 1 && w.root.countGudKey r = 1)
  | [p], [] => w.root.count = 1 && w.root.countGudKey p = 1
  | _, _ => false

/-- The sort-key attributes that occur, or `none` at a gap: one that occurs
after one that does not. -/
def sortKeyPrefix (root : LogicalExpression) (ended : Bool) : List String → Option (List String)
  | [] => some []
  | s :: rest =>
      if root.countLhs s = 0 then sortKeyPrefix root true rest
      else if ended then none
      else (sortKeyPrefix root false rest).map (s :: ·)

/-- Plan a Query, or `none` to signal Scan. -/
def planQuery (w : Where) (pk rk : List String) : Option QueryKeyPlan :=
  if pk.all (fun p => w.root.countGudKey p = 1 && w.root.countLhs p = 1) then
    match sortKeyPrefix w.root false rk with
    | none => none
    | some skPrefix =>
        if skPrefix.dropLast.all
            (fun s => w.root.countLhs s = 1 && w.root.countGudKey s = 1) then
          if w.root.querySafe ⟨pk, skPrefix⟩ then some ⟨pk, skPrefix⟩ else none
        else none
  else none

/-- The full base key is present; further predicates are tolerated. -/
def canUpdateItem (w : Where) (pk rk : List String) : Bool :=
  match pk, rk with
  | [p], r :: _ => w.root.countGudKey p = 1 && w.root.countGudKey r = 1
  | [p], [] => w.root.countGudKey p = 1
  | _, _ => false

def canDeleteItem (w : Where) (pk rk : List String) : Bool := w.canUpdateItem pk rk

/-- Only the first attribute of each list is consulted. -/
def getGudKey (w : Where) (pk rk : List String) : KeyMap :=
  w.root.getGudKey (pk.headD "") (rk.headD "")

def queryKeyConditionExpression (w : Where) (plan : QueryKeyPlan) : Alias String :=
  w.root.queryKeyConditionExpression plan.view

def queryFilterExpression (w : Where) (plan : QueryKeyPlan) : Alias String :=
  w.root.queryFilterExpression plan.view

def scanFilterExpression (w : Where) : Alias String := w.root.serialize

def updateDeleteConditionCheck (w : Where) (pk rk : String) : Alias String :=
  w.root.updateDeleteConditionCheck pk rk true

end Where

end DdbShell
