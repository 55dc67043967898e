import DdbShell.Expressions.Where
import DdbShell.TableSchema

/-!
The commands the builders read and the requests they fill in. Of a command
only what a builder looks at is here: a rate limit is its presence.
-/

namespace DdbShell

inductive ReturnValue where
  | none
  | allOld
  | allNew
  | updatedOld
  | updatedNew
  deriving DecidableEq, Repr

inductive ReturnConsumedCapacity where
  | none
  | total
  | indexes
  deriving DecidableEq, Repr

/-- Set by EXISTS and NOT EXISTS inside a write transaction. -/
inductive ExistsMode where
  | none
  | exists
  | notExists
  deriving DecidableEq, Repr

/-! ### Commands -/

/-- One SET assignment. An empty `rhsAttribute` or `ifNotExistsLhs` means the
form is not used. -/
structure UpdateSetElement where
  lhs : String
  op : String := ""
  rhsValue : Option Value := .none
  rhsAttribute : String := ""
  ifNotExistsLhs : String := ""
  ifNotExistsValue : Option Value := .none
  deriving DecidableEq, Repr

/-- SET and REMOVE exclude each other. -/
inductive Mutation where
  | set (elements : List UpdateSetElement)
  | remove (paths : List String)
  deriving DecidableEq, Repr

structure SelectCmd where
  consistent : Bool := false
  /-- empty for `*` -/
  projection : List String := []
  table : String
  index : Option String := .none
  condition : Option Where := .none
  rcc : ReturnConsumedCapacity := .none
  ratelimit : Bool := false
  existsMode : ExistsMode := .none
  searchVector : Option Value := .none
  topk : Option Int := .none

structure UpdateCmd where
  table : String
  index : Option String := .none
  mutation : Mutation
  condition : Option Where := .none
  upsert : Bool := false
  ratelimit : Bool := false
  returnValue : ReturnValue := .none

structure DeleteCmd where
  table : String
  index : Option String := .none
  condition : Option Where := .none
  ratelimit : Bool := false
  returnValue : ReturnValue := .none

/-! ### Requests -/

abbrev ExpressionAttributeNames := List (String × String)

abbrev ValueMap := List (String × Value)

structure GetItemIn where
  tableName : String
  key : ValueMap
  projectionExpression : Option String := .none
  expressionAttributeNames : ExpressionAttributeNames
  consistentRead : Bool := false
  returnConsumedCapacity : ReturnConsumedCapacity := .none

structure QueryIn where
  tableName : String
  indexName : Option String := .none
  keyConditionExpression : String
  filterExpression : Option String := .none
  projectionExpression : Option String := .none
  expressionAttributeNames : ExpressionAttributeNames
  expressionAttributeValues : ValueMap
  consistentRead : Bool := false
  returnConsumedCapacity : ReturnConsumedCapacity := .none
  exclusiveStartKey : Option ValueMap := .none

structure ScanIn where
  tableName : String
  indexName : Option String := .none
  filterExpression : Option String := .none
  projectionExpression : Option String := .none
  expressionAttributeNames : ExpressionAttributeNames
  expressionAttributeValues : ValueMap
  consistentRead : Bool := false
  returnConsumedCapacity : ReturnConsumedCapacity := .none
  exclusiveStartKey : Option ValueMap := .none

structure SearchVectorsIn where
  tableName : String
  indexName : String
  searchVector : List Value
  topk : Int
  searchConditionExpression : Option String := .none
  projectionExpression : Option String := .none
  expressionAttributeNames : ExpressionAttributeNames
  expressionAttributeValues : ValueMap
  returnConsumedCapacity : ReturnConsumedCapacity := .none

structure UpdateItemIn where
  tableName : String
  key : ValueMap := []
  updateExpression : String
  conditionExpression : Option String := .none
  expressionAttributeNames : ExpressionAttributeNames
  expressionAttributeValues : ValueMap
  returnValues : ReturnValue := .none
  returnConsumedCapacity : ReturnConsumedCapacity := .none

structure DeleteItemIn where
  tableName : String
  key : ValueMap := []
  conditionExpression : Option String := .none
  expressionAttributeNames : ExpressionAttributeNames
  expressionAttributeValues : ValueMap
  returnValues : ReturnValue := .none
  returnConsumedCapacity : ReturnConsumedCapacity := .none

structure TransactGet where
  tableName : String
  key : ValueMap
  projectionExpression : Option String := .none
  expressionAttributeNames : ExpressionAttributeNames

structure TransactUpdate where
  tableName : String
  key : ValueMap
  updateExpression : String
  conditionExpression : Option String := .none
  expressionAttributeNames : ExpressionAttributeNames
  expressionAttributeValues : ValueMap

structure TransactDelete where
  tableName : String
  key : ValueMap
  conditionExpression : Option String := .none
  expressionAttributeNames : ExpressionAttributeNames
  expressionAttributeValues : ValueMap

structure TransactConditionCheck where
  tableName : String
  key : ValueMap
  conditionExpression : String
  expressionAttributeNames : ExpressionAttributeNames
  expressionAttributeValues : ValueMap

/-! ### Describing a table -/

structure TableKeySchema where
  hashKeys : List String
  rangeKeys : List String
  deriving DecidableEq, Repr

structure WarmThroughputDescription where
  readUnitsPerSecond : Int := 0
  writeUnitsPerSecond : Int := 0
  status : String := ""
  deriving DecidableEq, Repr

structure SecondaryIndexSchema where
  indexName : String
  keySchema : TableKeySchema
  projection : Projection := {}
  projectionSet : Bool := false
  indexStatus : String := ""
  backfilling : Bool := false
  provisionedReadCapacityUnits : Int := 0
  provisionedWriteCapacityUnits : Int := 0
  onDemandThroughputSet : Bool := false
  onDemandMaxReadRequestUnits : Int := -1
  onDemandMaxWriteRequestUnits : Int := -1
  warmThroughput : Option WarmThroughputDescription := .none
  deriving DecidableEq, Repr

structure VectorIndexSchema where
  indexName : String
  vectorAttr : String := ""
  dimensions : Int := 0
  distance : VectorDistance := .cosine
  searchSchema : List SearchSchemaElem := []
  projection : Projection := {}
  projectionSet : Bool := false
  indexStatus : String := ""
  deriving DecidableEq, Repr

/-- A DescribeTable answer. Enumerations of the service come as their names. -/
structure DescribeTableOut where
  tableName : String := ""
  keySchema : TableKeySchema
  localSecondaryIndexes : List SecondaryIndexSchema := []
  globalSecondaryIndexes : List SecondaryIndexSchema := []
  vectorIndexes : List VectorIndexSchema := []
  tableStatus : String := ""
  tableId : String := ""
  tableArn : String := ""
  billingModeSummary : Option String := .none
  provisionedThroughputSet : Bool := false
  tableClassSummary : Option String := .none
  attributeDefinitions : List AttributeDef := []
  creationDateTime : String := ""
  tableSizeBytes : Int := 0
  itemCount : Int := 0
  deletionProtectionEnabled : Bool := false
  provisionedReadCapacityUnits : Int := 0
  provisionedWriteCapacityUnits : Int := 0
  onDemandThroughputSet : Bool := false
  onDemandMaxReadRequestUnits : Int := -1
  onDemandMaxWriteRequestUnits : Int := -1
  warmThroughput : Option WarmThroughputDescription := .none
  streamViewType : Option String := .none
  streamSpecificationSet : Bool := false
  sseStatus : Option String := .none
  deriving DecidableEq, Repr

/-- The table is billed on demand. -/
def DescribeTableOut.onDemand (td : DescribeTableOut) : Bool :=
  td.billingModeSummary = some "PAY_PER_REQUEST"

inductive Errc where
  | parseError
  | noSuchTable
  | tableAlreadyExists
  | conditionalCheckFailed
  | serviceError
  | invalidArgument
  | cancelled
  | notReducibleToGetitem
  | notImplemented
  | internalError
  deriving DecidableEq, Repr

structure Error where
  code : Errc
  message : String
  deriving DecidableEq, Repr

theorem map_eq_ok {ε α β : Type} {x : Except ε α} {f : α → β} {b : β}
    (h : x.map f = .ok b) : ∃ a, x = .ok a ∧ b = f a := by
  cases x with
  | ok a =>
      cases h
      exact ⟨a, rfl, rfl⟩
  | error e => cases h

theorem bind_eq_ok {ε α β : Type} {x : Except ε α} {f : α → Except ε β} {b : β}
    (h : (x >>= f) = .ok b) : ∃ a, x = .ok a ∧ f a = .ok b := by
  cases x with
  | ok a => exact ⟨a, rfl, h⟩
  | error e => cases h

/-- The service call the builders make. -/
abbrev DescribeTable := String → Except Error DescribeTableOut

structure ResolvedKeySchema where
  pk : List String
  rk : List String
  deriving DecidableEq, Repr

def fromTableKey (ks : TableKeySchema) : ResolvedKeySchema := ⟨ks.hashKeys, ks.rangeKeys⟩

/-- Local indexes are searched before global ones. -/
def getKeySchema (describe : DescribeTable) (table index : String) :
    Except Error ResolvedKeySchema := do
  let desc ← describe table
  if index = "" then
    return fromTableKey desc.keySchema
  match desc.localSecondaryIndexes.find? (fun lsi => lsi.indexName = index) with
  | some lsi => return fromTableKey lsi.keySchema
  | .none =>
      match desc.globalSecondaryIndexes.find? (fun gsi => gsi.indexName = index) with
      | some gsi => return fromTableKey gsi.keySchema
      | .none => throw ⟨.noSuchTable, "Unable to find primary key for " ++ table ++ "." ++ index⟩

/-! ### What every builder ends with -/

def namesOf (st : SymbolTable) : ExpressionAttributeNames := st.getNames.toList

def valuesOf (st : SymbolTable) : ValueMap := st.values.toList

def keyOf (key : KeyMap) : ValueMap := key.toList

/-- An expression goes into the request only if there is one. -/
def nonEmpty (text : String) : Option String :=
  if text ≠ "" then some text else .none

/-- `#a1, #a2` through the symbol table. -/
def serializeProjection : List String → Alias String
  | [] => return ""
  | [attr] => SymbolTable.newAttribute attr
  | attr :: next :: rest => do
      let token ← SymbolTable.newAttribute attr
      return token ++ ", " ++ (← serializeProjection (next :: rest))

/-- The projection of a request, absent for `*`. -/
def optionalProjection (projection : List String) : Alias (Option String) :=
  if projection.isEmpty then pure none
  else some <$> serializeProjection projection

/-- A Scan filter, absent without a WHERE clause. -/
def optionalScanFilter : Option Where → Alias (Option String)
  | none => pure none
  | some w => nonEmpty <$> w.scanFilterExpression

end DdbShell
