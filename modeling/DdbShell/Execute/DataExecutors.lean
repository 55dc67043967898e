import DdbShell.Calls
import DdbShell.Planner.SelectPlanner
import DdbShell.Execute.Requests

/-!
SELECT, INSERT and REPLACE, and the bulk UPDATE and DELETE, run against the
client or, under EXPLAIN, serialized by it. A rate limiter only delays calls
and is left out; the capacity figures it would read are still requested.
-/

namespace DdbShell

open Exec (attempt call emit ofExcept nextPrefix throw)

/-- `get_key_schema`: one DescribeTable. -/
def resolveKeySchema (table index : String) : Exec ResolvedKeySchema := do
  let described ← call (.describeTable table)
  ofExcept (getKeySchema (fun _ => .ok described) table index)

/-- Serialize a request and show it under its operation's name. -/
def explainBlock (apiName : String) (request : ExplainRequest) : Exec ExplainBlock := do
  let body ← call (.explainRequest request)
  return { apiName := apiName, body := body }

/-! ### Pages -/

namespace WriteReadPlan

/-- The request of the page after `key`. -/
def startingAt (key : Option ValueMap) : WriteReadPlan → WriteReadPlan
  | .query r => .query { r with exclusiveStartKey := key }
  | .scan r => .scan { r with exclusiveStartKey := key }

def apiName : WriteReadPlan → String
  | .query _ => "Query"
  | .scan _ => "Scan"

def explained : WriteReadPlan → ExplainRequest
  | .query r => .query r
  | .scan r => .scan r

end WriteReadPlan

def readPage : WriteReadPlan → Exec PageOut
  | .query r => call (.query r)
  | .scan r => call (.scan r)

/-- An absent or empty last key is the end of the enumeration. -/
def continuation : Option ValueMap → Option ValueMap
  | some (entry :: rest) => some (entry :: rest)
  | _ => none

/-! ### SELECT -/

/-- `ConsumedCapacityTotalizer`: `none` until an answer carries a figure. -/
abbrev Totalizer := Option ConsumedCapacity

namespace Totalizer

def accumulate (total value : Option Double) : Option Double :=
  match value with
  | some v => some (total.getD 0 + v)
  | none => total

def add (total : Totalizer) : Option ConsumedCapacity → Totalizer
  | none => total
  | some cc =>
      let sum := total.getD {}
      some {
        tableName := if sum.tableName.isNone then cc.tableName else sum.tableName
        capacityUnits := accumulate sum.capacityUnits cc.capacityUnits
        readCapacityUnits := accumulate sum.readCapacityUnits cc.readCapacityUnits
        writeCapacityUnits := accumulate sum.writeCapacityUnits cc.writeCapacityUnits }

end Totalizer

/-- The named index, if it is a vector index. -/
def execVectorIndex (cmd : SelectCmd) : Exec (Option (String × VectorIndexSchema)) :=
  match cmd.index with
  | none => return none
  | some index => do
      let described ← call (.describeTable cmd.table)
      return (described.vectorIndexes.find? fun vi => vi.indexName = index).map (index, ·)

/-- `plan_select` with its DescribeTable calls made through the client. -/
def execPlanSelect (cmd : SelectCmd) (aliasPrefix : String) : Exec SelectPlan := do
  match ← execVectorIndex cmd with
  | some (index, vi) => ofExcept (planSearchVectors cmd index vi aliasPrefix)
  | none =>
      if cmd.searchVector.isSome then
        throw ⟨.invalidArgument,
          match cmd.index with
          | some index => index ++ " is not a vector index; NEAREST requires a vector index."
          | none => "Vector search (NEAREST) requires a vector index (table.vectorindex)."⟩
      else do
        let schema ← resolveKeySchema cmd.table (cmd.index.getD "")
        return (planAccess cmd schema ⟨aliasPrefix, 1, 1, ∅, ∅⟩).1

def selectLoop : Nat → WriteReadPlan → List ItemRow → Totalizer →
    Exec (List ItemRow × Totalizer)
  | 0, _, _, _ => Exec.cut
  | budget + 1, request, items, total => do
      let page ← readPage request
      let items := items ++ page.items
      let total := total.add page.consumedCapacity
      match continuation page.lastEvaluatedKey with
      | none => return (items, total)
      | some key => selectLoop budget (request.startingAt (some key)) items total

/-- Capacity is shown only if the statement asked for it. -/
def selectOutcome (cmd : SelectCmd) (items : List ItemRow) (total : Totalizer) : ExecOutcome :=
  .select items (if cmd.rcc = .none then none else total)

def executeSelect (budget : Nat) (cmd : SelectCmd) (aliasPrefix : String) :
    Exec ExecOutcome := do
  match ← execPlanSelect cmd aliasPrefix with
  | .searchVectors request => do
      let out ← call (.searchVectors request)
      return .vectorSearch out.results (if cmd.rcc = .none then none else out.vectorCapacity)
  | .getItem request => do
      let out ← call (.getItem request)
      return selectOutcome cmd out.item.toList (Totalizer.add none out.consumedCapacity)
  | .query request => do
      let (items, total) ← selectLoop budget (.query request) [] none
      return selectOutcome cmd items total
  | .scan request => do
      let (items, total) ← selectLoop budget (.scan request) [] none
      return selectOutcome cmd items total

namespace SelectPlan

def apiName : SelectPlan → String
  | .getItem _ => "GetItem"
  | .query _ => "Query"
  | .scan _ => "Scan"
  | .searchVectors _ => "SearchVectors"

def explained : SelectPlan → ExplainRequest
  | .getItem r => .getItem r
  | .query r => .query r
  | .scan r => .scan r
  | .searchVectors r => .searchVectors r

end SelectPlan

def executeSelectExplain (cmd : SelectCmd) (aliasPrefix : String) : Exec ExecOutcome := do
  let plan ← execPlanSelect cmd aliasPrefix
  let block ← explainBlock plan.apiName plan.explained
  return .explain [block] none

/-! ### INSERT and REPLACE -/

def validateRowsFrom (columns : Nat) : Nat → List (List Value) → Except Error Unit
  | _, [] => .ok ()
  | tuple, row :: rows =>
      if row.length ≠ columns then
        .error ⟨.invalidArgument, "Unequal number of column names (" ++ toString columns ++
          ") and values (" ++ toString row.length ++ ") in tuple " ++ toString tuple⟩
      else validateRowsFrom columns (tuple + 1) rows

def validateInsertRows (cmd : InsertCmd) : Except Error Unit :=
  validateRowsFrom cmd.columns.length 1 cmd.rows

def putRequest (cmd : InsertCmd) (row : List Value) : PutItemIn where
  tableName := cmd.tableName
  item := cmd.columns.zip row
  returnValues := cmd.returnValue
  returnConsumedCapacity := meteredCapacity cmd.ratelimit

/-- INSERT asks that the partition key be new. -/
def guardedPutRequest (cmd : InsertCmd) (row : List Value) (pk aliasPrefix : String) :
    PutItemIn :=
  let (token, st) := SymbolTable.newAttribute pk ⟨aliasPrefix, 1, 1, ∅, ∅⟩
  { putRequest cmd row with
    conditionExpression := some ("attribute_not_exists(" ++ token ++ ")")
    expressionAttributeNames := namesOf st }

def makePutRequest (cmd : InsertCmd) (pk : String) (row : List Value) : Exec PutItemIn :=
  if cmd.insert then do
    let aliasPrefix ← nextPrefix
    return guardedPutRequest cmd row pk aliasPrefix
  else return putRequest cmd row

/-- The checks both INSERT paths start with. -/
def insertPartitionKey (cmd : InsertCmd) : Exec String := do
  let schema ← resolveKeySchema cmd.tableName ""
  ofExcept (validateInsertRows cmd)
  return schema.pk.headD ""

def insertToken (cmd : InsertCmd) : String := if cmd.insert then "INSERT" else "REPLACE"

/-- One status token per row, emitted as soon as the row is written. -/
def insertRows (cmd : InsertCmd) (pk : String) : List (List Value) → Exec Unit
  | [] => return ()
  | row :: rows => do
      let request ← makePutRequest cmd pk row
      let out ← call (.putItem request)
      emit (.write [insertToken cmd]
        (if cmd.returnValue = .none then [] else [some (out.attributes.getD {})]))
      insertRows cmd pk rows

def executeInsertStreaming (cmd : InsertCmd) : Exec Unit := do
  let pk ← insertPartitionKey cmd
  insertRows cmd pk cmd.rows

def explainRows (cmd : InsertCmd) (pk : String) (blocks : List ExplainBlock) :
    List (List Value) → Exec (List ExplainBlock)
  | [] => return blocks
  | row :: rows => do
      let request ← makePutRequest cmd pk row
      let block ← explainBlock "PutItem" (.putItem request)
      explainRows cmd pk (blocks ++ [block]) rows

def executeInsertExplain (cmd : InsertCmd) : Exec ExecOutcome := do
  let pk ← insertPartitionKey cmd
  let blocks ← explainRows cmd pk [] cmd.rows
  return .explain blocks none

/-! ### UPDATE and DELETE -/

/-- The write every enumerated item gets, but for its key. -/
inductive WriteTemplate where
  | update (request : UpdateItemIn)
  | delete (request : DeleteItemIn)

namespace WriteTemplate

def keyed (key : ValueMap) : WriteTemplate → WriteTemplate
  | .update r => .update { r with key := key }
  | .delete r => .delete { r with key := key }

def apiName : WriteTemplate → String
  | .update _ => "UpdateItem"
  | .delete _ => "DeleteItem"

def explained : WriteTemplate → ExplainRequest
  | .update r => .updateItem r
  | .delete r => .deleteItem r

end WriteTemplate

def attemptWrite : WriteTemplate → Exec (Except Error WriteOut)
  | .update r => attempt (.updateItem r)
  | .delete r => attempt (.deleteItem r)

/-- The key of an enumerated row, sorted by name. -/
def rowKey (item : ItemRow) : ValueMap :=
  keyOf (item.attributes.foldl (fun key entry => key.insertIfNew entry.1 entry.2) ∅)

namespace BulkWriteOutcome

/-- A write that went through. -/
def wrote (acct : BulkWriteOutcome) (wantRv : Bool) (out : WriteOut) : BulkWriteOutcome :=
  { acct with
    modified := acct.modified + 1
    returnedItems :=
      if wantRv then acct.returnedItems ++ [out.attributes.getD {}] else acct.returnedItems }

def failedCondition (acct : BulkWriteOutcome) : BulkWriteOutcome :=
  { acct with ccf := acct.ccf + 1 }

end BulkWriteOutcome

/-- A failed condition is counted; any other error ends the statement. -/
def writeOne (request : WriteTemplate) (wantRv : Bool) (acct : BulkWriteOutcome) :
    Exec BulkWriteOutcome := do
  match ← attemptWrite request with
  | .ok out => return acct.wrote wantRv out
  | .error e =>
      if e.code = .conditionalCheckFailed then return acct.failedCondition else throw e

def writeItems (template : WriteTemplate) (wantRv : Bool) :
    BulkWriteOutcome → List ItemRow → Exec BulkWriteOutcome
  | acct, [] => return acct
  | acct, item :: items => do
      let acct ← writeOne (template.keyed (rowKey item)) wantRv { acct with read := acct.read + 1 }
      writeItems template wantRv acct items

def explainItems (template : WriteTemplate) :
    List ExplainBlock → List ItemRow → Exec (List ExplainBlock)
  | blocks, [] => return blocks
  | blocks, item :: items => do
      let block ← explainBlock template.apiName (template.keyed (rowKey item)).explained
      explainItems template (blocks ++ [block]) items

def explainPage (explainPages : Bool) (request : WriteReadPlan) (blocks : List ExplainBlock) :
    Exec (List ExplainBlock) :=
  if explainPages then do
    let block ← explainBlock request.apiName request.explained
    return blocks ++ [block]
  else return blocks

/-- Write the items of a page, or explain their writes. -/
def bulkItems (explain : Bool) (template : WriteTemplate) (wantRv : Bool)
    (blocks : List ExplainBlock) (acct : BulkWriteOutcome) (items : List ItemRow) :
    Exec (List ExplainBlock × BulkWriteOutcome) :=
  if explain then do
    let blocks ← explainItems template blocks items
    return (blocks, acct)
  else do
    let acct ← writeItems template wantRv acct items
    return (blocks, acct)

/-- The page loop. Only UPDATE explains the read of every page. -/
def bulkLoop (explain explainPages : Bool) (read : WriteReadPlan) (template : WriteTemplate)
    (wantRv : Bool) : Nat → Option ValueMap → List ExplainBlock → BulkWriteOutcome →
      Exec (List ExplainBlock × BulkWriteOutcome)
  | 0, _, _, _ => Exec.cut
  | budget + 1, startKey, blocks, acct => do
      let blocks ← explainPage explainPages (read.startingAt startKey) blocks
      let page ← readPage (read.startingAt startKey)
      let (blocks, acct) ← bulkItems explain template wantRv blocks acct page.items
      match continuation page.lastEvaluatedKey with
      | none => return (blocks, acct)
      | some key => bulkLoop explain explainPages read template wantRv budget (some key) blocks acct

/-- The single write of a statement that names the full base key. -/
def executeOne (explain : Bool) (request : WriteTemplate) (wantRv : Bool) (verb : WriteVerb) :
    Exec Unit :=
  if explain then do
    let block ← explainBlock request.apiName request.explained
    emit (.explain [block] none)
  else do
    let acct ← writeOne request wantRv { verb := verb }
    emit (.bulkWrite acct)

/-- The query plan of an enumeration: against the index if one is named. -/
def enumerationPlan (table : String) (index : Option String) (condition : Option Where)
    (base : ResolvedKeySchema) : Exec (Option QueryKeyPlan) :=
  match index with
  | none => return condition.bind fun w => w.planQuery base.pk base.rk
  | some index => do
      let schema ← resolveKeySchema table index
      return condition.bind fun w => w.planQuery schema.pk schema.rk

def emitBulk (explain : Bool) : List ExplainBlock × BulkWriteOutcome → Exec Unit
  | (blocks, acct) => if explain then emit (.explain blocks none) else emit (.bulkWrite acct)

/-- The write template takes the first alias prefix, the read the second. -/
def executeUpdate (budget : Nat) (cmd : UpdateCmd) (explain : Bool) : Exec Unit := do
  let base ← resolveKeySchema cmd.table ""
  let basePk := base.pk.headD ""
  let baseRk := base.rk.headD ""
  let writePrefix ← nextPrefix
  let template :=
    WriteTemplate.update (makeUpdateRequest cmd basePk baseRk ⟨writePrefix, 1, 1, ∅, ∅⟩).1
  let verb := if cmd.upsert then WriteVerb.upsert else WriteVerb.update
  let wantRv := decide (cmd.returnValue ≠ .none)
  match cmd.condition.filter fun w => w.canUpdateItem base.pk base.rk with
  | some w => executeOne explain (template.keyed (keyOf (w.getGudKey base.pk base.rk))) wantRv verb
  | none => do
      let qplan ← enumerationPlan cmd.table cmd.index cmd.condition base
      let readPrefix ← nextPrefix
      let read := (buildWriteRead cmd.table cmd.index cmd.condition qplan basePk baseRk
        cmd.ratelimit ⟨readPrefix, 1, 1, ∅, ∅⟩).1
      let result ← bulkLoop explain explain read template wantRv budget none [] { verb := verb }
      emitBulk explain result

/-- The first block of an explained DELETE, and whether the read then runs: an
explained Query is only shown. -/
def explainDeleteRead (explain : Bool) (read : WriteReadPlan) :
    Exec (List ExplainBlock × Bool) :=
  if explain then do
    let block ← explainBlock read.apiName read.explained
    match read with
    | .query _ => return ([block], false)
    | .scan _ => return ([block], true)
  else return ([], true)

def executeDelete (budget : Nat) (cmd : DeleteCmd) (explain : Bool) : Exec Unit := do
  let base ← resolveKeySchema cmd.table ""
  let basePk := base.pk.headD ""
  let baseRk := base.rk.headD ""
  let writePrefix ← nextPrefix
  let template :=
    WriteTemplate.delete (makeDeleteRequest cmd basePk baseRk ⟨writePrefix, 1, 1, ∅, ∅⟩).1
  let wantRv := decide (cmd.returnValue ≠ .none)
  match cmd.condition.filter fun w => w.canDeleteItem base.pk base.rk with
  | some w => executeOne explain (template.keyed (keyOf (w.getGudKey base.pk base.rk))) wantRv .del
  | none => do
      let qplan ← enumerationPlan cmd.table cmd.index cmd.condition base
      let readPrefix ← nextPrefix
      let read := (buildWriteRead cmd.table cmd.index cmd.condition qplan basePk baseRk
        cmd.ratelimit ⟨readPrefix, 1, 1, ∅, ∅⟩).1
      let (blocks, runs) ← explainDeleteRead explain read
      if runs then do
        let result ← bulkLoop explain false read template wantRv budget none blocks { verb := .del }
        emitBulk explain result
      else emit (.explain blocks none)

end DdbShell
