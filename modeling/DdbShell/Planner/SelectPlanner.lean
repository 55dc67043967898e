import DdbShell.Client

/-!
Planning a SELECT: vector search first, then GetItem, Query or Scan, with the
projection, the key condition and the filter aliased through one symbol table
in that order.
-/

namespace DdbShell

inductive SelectPlan where
  | getItem (request : GetItemIn)
  | query (request : QueryIn)
  | scan (request : ScanIn)
  | searchVectors (request : SearchVectorsIn)

def requestedCapacity (cmd : SelectCmd) : ReturnConsumedCapacity :=
  if cmd.ratelimit then .total else cmd.rcc

/-- The checks of a NEAREST clause against the vector index, in order. -/
def checkSearchVector (cmd : SelectCmd) (vi : VectorIndexSchema) :
    Except Error (List Value × Int) := do
  let some qv := cmd.searchVector
    | throw ⟨.invalidArgument, "A SELECT on vector index " ++ vi.indexName ++
        " requires a NEAREST <n> TO [ ... ] clause."⟩
  if cmd.consistent then
    throw ⟨.invalidArgument, "CONSISTENT is not supported with vector search."⟩
  let topk := cmd.topk.getD 0
  if topk ≤ 0 then
    throw ⟨.invalidArgument, "Vector search TopK must be a positive integer."⟩
  let .L list := qv
    | throw ⟨.invalidArgument, "The NEAREST search vector must be a numeric list."⟩
  if !list.all (fun e => match e with | .N _ => true | _ => false) then
    throw ⟨.invalidArgument, "The NEAREST search vector must contain only numbers."⟩
  if vi.dimensions > 0 ∧ (list.length : Int) ≠ vi.dimensions then
    throw ⟨.invalidArgument, "The search vector has " ++ toString list.length ++
      " values; vector index " ++ vi.indexName ++ " expects " ++ toString vi.dimensions ++ "."⟩
  return (list, topk)

def planSearchVectors (cmd : SelectCmd) (index : String) (vi : VectorIndexSchema)
    (aliasPrefix : String) : Except Error SelectPlan := do
  let (searchVector, topk) ← checkSearchVector cmd vi
  let ((projection, filter), st) :=
    (do
      let projection ← optionalProjection cmd.projection
      return (projection, ← optionalScanFilter cmd.condition) : Alias _) ⟨aliasPrefix, 1, 1, ∅, ∅⟩
  return .searchVectors
    { tableName := cmd.table
      indexName := index
      searchVector := searchVector
      topk := topk
      searchConditionExpression := filter
      projectionExpression := projection
      expressionAttributeNames := namesOf st
      expressionAttributeValues := valuesOf st
      returnConsumedCapacity := requestedCapacity cmd }

/-- The Query request: projection, key condition, filter. -/
def queryRequest (cmd : SelectCmd) (w : Where) (qplan : QueryKeyPlan) : Alias QueryIn := do
  let projection ← optionalProjection cmd.projection
  let keyCondition ← w.queryKeyConditionExpression qplan
  let filter ← w.queryFilterExpression qplan
  let st ← get
  return {
    tableName := cmd.table
    indexName := cmd.index
    consistentRead := cmd.consistent
    returnConsumedCapacity := requestedCapacity cmd
    projectionExpression := projection
    keyConditionExpression := keyCondition
    filterExpression := nonEmpty filter
    expressionAttributeNames := namesOf st
    expressionAttributeValues := valuesOf st }

def scanRequest (cmd : SelectCmd) : Alias ScanIn := do
  let projection ← optionalProjection cmd.projection
  let filter ← optionalScanFilter cmd.condition
  let st ← get
  return {
    tableName := cmd.table
    indexName := cmd.index
    consistentRead := cmd.consistent
    returnConsumedCapacity := requestedCapacity cmd
    projectionExpression := projection
    filterExpression := filter
    expressionAttributeNames := namesOf st
    expressionAttributeValues := valuesOf st }

/-- GetItem ignores the rate limit: there is nothing to paginate. -/
def getItemRequest (cmd : SelectCmd) (key : KeyMap) : Alias GetItemIn := do
  let projection ← optionalProjection cmd.projection
  let st ← get
  return {
    tableName := cmd.table
    consistentRead := cmd.consistent
    projectionExpression := projection
    expressionAttributeNames := namesOf st
    returnConsumedCapacity := cmd.rcc
    key := keyOf key }

/-- The classic access paths of a resolved key schema, GetItem for the base
table only. -/
def planAccess (cmd : SelectCmd) (schema : ResolvedKeySchema) : Alias SelectPlan :=
  match cmd.condition with
  | none => return .scan (← scanRequest cmd)
  | some w =>
      if cmd.index.isNone && w.canGetitem schema.pk schema.rk then
        return .getItem (← getItemRequest cmd (w.getGudKey schema.pk schema.rk))
      else
        match w.planQuery schema.pk schema.rk with
        | some qplan => return .query (← queryRequest cmd w qplan)
        | none => return .scan (← scanRequest cmd)

def planSelect (cmd : SelectCmd) (describe : DescribeTable) (aliasPrefix : String) :
    Except Error SelectPlan := do
  -- a `.index` that is a vector index routes to SearchVectors
  let vector ← match cmd.index with
    | none => pure none
    | some index => do
        let described ← describe cmd.table
        pure ((described.vectorIndexes.find? fun vi => vi.indexName = index).map (index, ·))
  match vector with
  | some (index, vi) => planSearchVectors cmd index vi aliasPrefix
  | none =>
      if cmd.searchVector.isSome then
        throw ⟨.invalidArgument,
          match cmd.index with
          | some index => index ++ " is not a vector index; NEAREST requires a vector index."
          | none => "Vector search (NEAREST) requires a vector index (table.vectorindex)."⟩
      let schema ← getKeySchema describe cmd.table (cmd.index.getD "")
      return (planAccess cmd schema ⟨aliasPrefix, 1, 1, ∅, ∅⟩).1

end DdbShell
