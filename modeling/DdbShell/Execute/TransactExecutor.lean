import DdbShell.Execute.DataExecutors

/-!
Transactions. Every inner statement is built into one entry of a single
request (a row each for INSERT and REPLACE). A statement that cannot be reduced
to one item aborts the transaction but building goes on; any other error ends
it.
-/

namespace DdbShell

open Exec (attempt emit throw)

/-- Run a builder with the next alias prefix, which is used up only if the
entry is built: the builders check first and mint then. -/
def minting {α : Type} (build : String → Except Error α) : Exec α := fun counter =>
  match build (uniquePrefix counter) with
  | .ok a => .done (.ok a, counter + 1)
  | .error e => .done (.error e, counter)

/-- Run a builder on the described table. -/
def buildEntry {α : Type} (table : String)
    (build : DescribeTable → String → Except Error α) : Exec α := do
  let described ← attempt (.describeTable table)
  minting (build fun _ => described)

def execTransactGet (cmd : SelectCmd) : Exec TransactGet :=
  buildEntry cmd.table (buildTransactGet cmd)

def execTransactUpdate (cmd : UpdateCmd) : Exec TransactUpdate :=
  buildEntry cmd.table (buildTransactUpdate cmd)

def execTransactDelete (cmd : DeleteCmd) : Exec TransactDelete :=
  buildEntry cmd.table (buildTransactDelete cmd)

/-- Without EXISTS or NOT EXISTS the table is not even described. -/
def execTransactConditionCheck (cmd : SelectCmd) : Exec TransactConditionCheck :=
  match existsFunction cmd.existsMode with
  | none => throw selectNoExists
  | some _ => buildEntry cmd.table (buildTransactConditionCheck cmd)

def transactPut (request : PutItemIn) : TransactPut where
  tableName := request.tableName
  item := request.item
  conditionExpression := request.conditionExpression
  expressionAttributeNames := request.expressionAttributeNames
  expressionAttributeValues := request.expressionAttributeValues

def transactPuts (cmd : InsertCmd) (pk : String) : List (List Value) → Exec (List TransactPut)
  | [] => return []
  | row :: rows => do
      let request ← makePutRequest cmd pk row
      let rest ← transactPuts cmd pk rows
      return transactPut request :: rest

def execTransactPuts (cmd : InsertCmd) : Exec (List TransactPut) := do
  let pk ← insertPartitionKey cmd
  transactPuts cmd pk cmd.rows

/-- What building has collected so far. -/
structure Building (α : Type) where
  aborted : Bool
  diagnostics : List String := []
  entries : List α := []

namespace Building

variable {α : Type}

def abort (b : Building α) : Building α := { b with aborted := true }

def add (b : Building α) (new : List α) : Building α := { b with entries := b.entries ++ new }

end Building

/-- `absorb_or_propagate`: a statement that is not reducible aborts, with its
message if it has one. -/
def absorbOrPropagate {α : Type} (b : Building α) (e : Error) : Exec (Building α) :=
  if e.code = .notReducibleToGetitem then
    return { b with
      aborted := true
      diagnostics := if e.message = "" then b.diagnostics else b.diagnostics ++ [e.message] }
  else throw e

/-- Catch the error of a builder; a cut-off is no error. -/
def caught {α : Type} (x : Exec α) : Exec (Except Error α) := fun counter => do
  let (ending, counter) ← x counter
  match ending with
  | .ok a => pure (.ok (.ok a), counter)
  | .error e => pure (.ok (.error e), counter)
  | .cut => pure (.cut, counter)

/-- Build one statement's entries into the collection. -/
def buildInto {α : Type} (b : Building α) (entries : Exec (List α)) : Exec (Building α) := do
  match ← caught entries with
  | .ok new => return b.add new
  | .error e => absorbOrPropagate b e

def buildReadItem (b : Building TransactGet) : TransactItem → Exec (Building TransactGet)
  | .select cmd =>
      buildInto b do
        let get ← execTransactGet cmd
        return [get]
  | _ => return b.abort

def buildWriteItem (b : Building TransactWriteItem) :
    TransactItem → Exec (Building TransactWriteItem)
  | .insert cmd =>
      buildInto b do
        let puts ← execTransactPuts cmd
        return puts.map .put
  | .update cmd =>
      buildInto b do
        let update ← execTransactUpdate cmd
        return [.update update]
  | .delete cmd =>
      buildInto b do
        let delete ← execTransactDelete cmd
        return [.delete delete]
  | .select cmd =>
      buildInto b do
        let check ← execTransactConditionCheck cmd
        return [.conditionCheck check]
  | .placeholder => return b.abort

def buildItems {α : Type} (build : Building α → TransactItem → Exec (Building α)) :
    Building α → List TransactItem → Exec (Building α)
  | b, [] => return b
  | b, item :: items => do
      let b ← build b item
      buildItems build b items

def transactAborted (diagnostics : List String) : ExecOutcome := .transact "ABORT" diagnostics

/-- Send the one request. A cancellation shows ABORT and then the error. -/
def sendTransaction {α : Type} (x : Exec (Except Error α)) : Exec α := do
  match ← x with
  | .ok out => return out
  | .error e => do
      emit (transactAborted [])
      throw e

def executeTransactRead (cmd : TransactCmd) (explain : Bool) : Exec Unit := do
  let b ← buildItems buildReadItem { aborted := cmd.rollback } cmd.items
  if b.aborted then emit (transactAborted b.diagnostics)
  else if explain then do
    let block ← explainBlock "TransactGetItems" (.transactGetItems b.entries)
    emit (.explain [block] none)
  else do
    let responses ← sendTransaction (attempt (.transactGetItems b.entries))
    -- a miss is shown as an empty row, not left out
    emit (.transactRead (responses.map fun response => response.getD {}))

def executeTransactWrite (cmd : TransactCmd) (explain : Bool) : Exec Unit := do
  let b ← buildItems buildWriteItem { aborted := cmd.rollback } cmd.items
  if b.aborted then emit (transactAborted b.diagnostics)
  else if explain then do
    let block ← explainBlock "TransactWriteItems" (.transactWriteItems b.entries)
    emit (.explain [block] none)
  else do
    sendTransaction (attempt (.transactWriteItems b.entries))
    emit (.status "COMMIT" [])

def executeTransact (cmd : TransactCmd) (explain : Bool) : Exec Unit :=
  if cmd.items.isEmpty then emit .empty
  else
    match cmd.access with
    | .read => executeTransactRead cmd explain
    | .write => executeTransactWrite cmd explain

end DdbShell
