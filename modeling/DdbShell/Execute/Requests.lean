import DdbShell.Client

/-!
The write-path builders: UpdateItem and DeleteItem requests, the enumeration
read of a bulk write, and the items of a transaction.
-/

namespace DdbShell

open SymbolTable

/-! ### UpdateItem and DeleteItem -/

/-- What stands before the operator: an attribute, an `if_not_exists`, or
nothing. -/
def setSource (elem : UpdateSetElement) : Alias String :=
  if elem.rhsAttribute ≠ "" then newAttribute elem.rhsAttribute
  else if elem.ifNotExistsLhs ≠ "" then do
    let path ← newAttribute elem.ifNotExistsLhs
    let value ← newValue (elem.ifNotExistsValue.getD default)
    pure ("if_not_exists(" ++ path ++ "," ++ value ++ ")")
  else pure ""

def setOperand : Option Value → Alias String
  | some v => newValue v
  | none => pure ""

def serializeSetElement (elem : UpdateSetElement) : Alias String := do
  let lhs ← newAttribute elem.lhs
  let source ← setSource elem
  let operand ← setOperand elem.rhsValue
  return lhs ++ " = " ++ source ++ elem.op ++ operand

def serializeSet : List UpdateSetElement → Alias String
  | [] => return ""
  | [elem] => serializeSetElement elem
  | elem :: next :: rest => do
      let text ← serializeSetElement elem
      return text ++ ", " ++ (← serializeSet (next :: rest))

def updateExpression : Mutation → Alias String
  | .set elements => return "SET " ++ (← serializeSet elements)
  | .remove paths => return "REMOVE " ++ (← serializeProjection paths)

/-- UPDATE asks that the item exist, UPSERT does not. -/
def existsGuard (upsert : Bool) (pk : String) : Alias String :=
  if upsert then pure ""
  else do
    let token ← newAttribute pk
    pure ("attribute_exists(" ++ token ++ ")")

/-- The residual of the WHERE clause is appended to the guard as it is. -/
def guardedBy (guard qf : String) : String :=
  if qf = "" then guard else if guard = "" then qf else guard ++ " AND " ++ qf

def updateCondition (cmd : UpdateCmd) (pk rk : String) : Alias String :=
  match cmd.condition with
  | none => existsGuard cmd.upsert pk
  | some w => do
      let guard ← existsGuard cmd.upsert pk
      let qf ← w.updateDeleteConditionCheck pk rk
      return guardedBy guard qf

def meteredCapacity (ratelimit : Bool) : ReturnConsumedCapacity :=
  if ratelimit then .total else .none

def makeUpdateRequest (cmd : UpdateCmd) (pk rk : String) : Alias UpdateItemIn := do
  let expr ← updateExpression cmd.mutation
  let cond ← updateCondition cmd pk rk
  let st ← get
  return {
    tableName := cmd.table
    returnValues := cmd.returnValue
    updateExpression := expr
    conditionExpression := nonEmpty cond
    expressionAttributeNames := namesOf st
    expressionAttributeValues := valuesOf st
    returnConsumedCapacity := meteredCapacity cmd.ratelimit }

def deleteCondition (cmd : DeleteCmd) (pk rk : String) : Alias String :=
  match cmd.condition with
  | none => return ""
  | some w => w.updateDeleteConditionCheck pk rk

def makeDeleteRequest (cmd : DeleteCmd) (pk rk : String) : Alias DeleteItemIn := do
  let cond ← deleteCondition cmd pk rk
  let st ← get
  return {
    tableName := cmd.table
    returnValues := cmd.returnValue
    conditionExpression := nonEmpty cond
    expressionAttributeNames := namesOf st
    expressionAttributeValues := valuesOf st
    returnConsumedCapacity := meteredCapacity cmd.ratelimit }

/-! ### The enumeration read of a bulk write -/

inductive WriteReadPlan where
  | query (request : QueryIn)
  | scan (request : ScanIn)

/-- The base-table key, so that every enumerated item can be addressed. -/
def projectBaseKeys (basePk baseRk : String) : Alias String :=
  if baseRk = "" then newAttribute basePk
  else do
    let pk ← newAttribute basePk
    let rk ← newAttribute baseRk
    return pk ++ ", " ++ rk

def writeReadQuery (table : String) (index : Option String) (w : Where) (plan : QueryKeyPlan)
    (basePk baseRk : String) (ratelimit : Bool) : Alias QueryIn := do
  let projection ← projectBaseKeys basePk baseRk
  let keyCondition ← w.queryKeyConditionExpression plan
  let filter ← w.queryFilterExpression plan
  let st ← get
  return {
    tableName := table
    indexName := index
    returnConsumedCapacity := meteredCapacity ratelimit
    projectionExpression := some projection
    keyConditionExpression := keyCondition
    filterExpression := nonEmpty filter
    expressionAttributeNames := namesOf st
    expressionAttributeValues := valuesOf st }

def writeReadScan (table : String) (index : Option String) (condition : Option Where)
    (basePk baseRk : String) (ratelimit : Bool) : Alias ScanIn := do
  let projection ← projectBaseKeys basePk baseRk
  let filter ← optionalScanFilter condition
  let st ← get
  return {
    tableName := table
    indexName := index
    returnConsumedCapacity := meteredCapacity ratelimit
    projectionExpression := some projection
    filterExpression := filter
    expressionAttributeNames := namesOf st
    expressionAttributeValues := valuesOf st }

/-- A present plan selects Query. Plans exist only for a WHERE clause. -/
def buildWriteRead (table : String) (index : Option String) (condition : Option Where)
    (qplan : Option QueryKeyPlan) (basePk baseRk : String) (ratelimit : Bool) :
    Alias WriteReadPlan :=
  match condition, qplan with
  | some w, some plan =>
      WriteReadPlan.query <$> writeReadQuery table index w plan basePk baseRk ratelimit
  | _, _ => WriteReadPlan.scan <$> writeReadScan table index condition basePk baseRk ratelimit

/-! ### Transactions -/

def selectNotReducible : Error :=
  ⟨.notReducibleToGetitem,
    "The SELECT cannot be used in a transaction (it cannot be reduced to a GetItem() request)."⟩

def selectNoExists : Error :=
  ⟨.notReducibleToGetitem,
    "A SELECT command without an EXISTS or NOT EXISTS cannot be used in a write transaction."⟩

def notReducible : Error := ⟨.notReducibleToGetitem, ""⟩

def buildTransactGet (cmd : SelectCmd) (describe : DescribeTable) (aliasPrefix : String) :
    Except Error TransactGet := do
  let schema ← getKeySchema describe cmd.table ""
  match cmd.condition with
  | none => throw selectNotReducible
  | some w =>
      if cmd.index.isSome || !w.canGetitem schema.pk schema.rk then
        throw selectNotReducible
      let (projection, st) := optionalProjection cmd.projection ⟨aliasPrefix, 1, 1, ∅, ∅⟩
      return {
        tableName := cmd.table
        projectionExpression := projection
        expressionAttributeNames := namesOf st
        key := keyOf (w.getGudKey schema.pk schema.rk) }

def buildTransactUpdate (cmd : UpdateCmd) (describe : DescribeTable) (aliasPrefix : String) :
    Except Error TransactUpdate := do
  let schema ← getKeySchema describe cmd.table ""
  match cmd.condition with
  | none => throw notReducible
  | some w =>
      if !w.canUpdateItem schema.pk schema.rk then
        throw notReducible
      let req := (makeUpdateRequest cmd (schema.pk.headD "") (schema.rk.headD "")
        ⟨aliasPrefix, 1, 1, ∅, ∅⟩).1
      return {
        tableName := req.tableName
        key := keyOf (w.getGudKey schema.pk schema.rk)
        updateExpression := req.updateExpression
        conditionExpression := req.conditionExpression
        expressionAttributeNames := req.expressionAttributeNames
        expressionAttributeValues := req.expressionAttributeValues }

def buildTransactDelete (cmd : DeleteCmd) (describe : DescribeTable) (aliasPrefix : String) :
    Except Error TransactDelete := do
  let schema ← getKeySchema describe cmd.table ""
  match cmd.condition with
  | none => throw notReducible
  | some w =>
      if !w.canDeleteItem schema.pk schema.rk then
        throw notReducible
      let req := (makeDeleteRequest cmd (schema.pk.headD "") (schema.rk.headD "")
        ⟨aliasPrefix, 1, 1, ∅, ∅⟩).1
      return {
        tableName := req.tableName
        key := keyOf (w.getGudKey schema.pk schema.rk)
        conditionExpression := req.conditionExpression
        expressionAttributeNames := req.expressionAttributeNames
        expressionAttributeValues := req.expressionAttributeValues }

/-- One check for each projected attribute, with nothing between them. -/
def existsChecks (checkFunc : String) : List String → Alias String
  | [] => return ""
  | attr :: rest => do
      let check := checkFunc ++ "(" ++ (← newAttribute attr) ++ ")"
      return check ++ (← existsChecks checkFunc rest)

def existsFunction : ExistsMode → Option String
  | .exists => some "attribute_exists"
  | .notExists => some "attribute_not_exists"
  | .none => none

/-- The residual filter against the whole base key, then the checks. -/
def conditionCheckExpression (checkFunc : String) (projection : List String) (w : Where)
    (schema : ResolvedKeySchema) : Alias String := do
  let filter ← w.queryFilterExpression ⟨schema.pk, schema.rk⟩
  let joined := if filter = "" then filter else filter ++ " AND "
  let checks ← existsChecks checkFunc
    (if projection.isEmpty then [schema.pk.headD ""] else projection)
  return joined ++ checks

def buildTransactConditionCheck (cmd : SelectCmd) (describe : DescribeTable)
    (aliasPrefix : String) : Except Error TransactConditionCheck := do
  let some checkFunc := existsFunction cmd.existsMode | throw selectNoExists
  let schema ← getKeySchema describe cmd.table ""
  match cmd.condition with
  | none => throw notReducible
  | some w =>
      let (condition, st) :=
        conditionCheckExpression checkFunc cmd.projection w schema ⟨aliasPrefix, 1, 1, ∅, ∅⟩
      return {
        tableName := cmd.table
        key := keyOf (w.getGudKey schema.pk schema.rk)
        conditionExpression := condition
        expressionAttributeNames := namesOf st
        expressionAttributeValues := valuesOf st }

end DdbShell
