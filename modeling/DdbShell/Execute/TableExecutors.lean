import DdbShell.Execute.Describe
import DdbShell.Execute.TransactExecutor

/-!
The table, backup and restore statements, and `Session::execute` for the
statements that can be explained.
-/

namespace DdbShell

open Exec (attempt call emit ofExcept throw)

/-- The outcome of a single explained request. -/
def explainOne (apiName : String) (request : ExplainRequest) : Exec ExecOutcome := do
  let block ← explainBlock apiName request
  return .explain [block] none

/-! ### DROP TABLE -/

/-- IF EXISTS probes the table; an error of the probe counts as missing. -/
def dropProbe (cmd : DropTableCmd) : Exec Bool :=
  if cmd.ifExists then do
    let described ← attempt (.describeTable cmd.table)
    return described.toBool
  else return true

def executeDropTable (cmd : DropTableCmd) : Exec ExecOutcome := do
  if ← dropProbe cmd then do
    call (.deleteTable cmd.table)
    if !cmd.nowait then call (.waitForTableGone cmd.table)
    return .status "DROP" []
  else return .empty

def executeDropTableExplain (cmd : DropTableCmd) : Exec ExecOutcome := do
  if ← dropProbe cmd then explainOne "DeleteTable" (.deleteTable cmd.table)
  else return .empty

/-! ### CREATE TABLE -/

def KeySchema.isSingleKey (ks : KeySchema) : Bool := ks.hash.length ≤ 1 && ks.range.length ≤ 1

/-- The first error of a list of checks. -/
def firstError : List (Option String) → Except Error Unit
  | [] => .ok ()
  | some message :: _ => .error ⟨.invalidArgument, message⟩
  | none :: rest => firstError rest

/-- A failed condition and what is said about it. -/
def reject (failed : Bool) (message : String) : Option String :=
  if failed then some message else none

def checkTableKey (cmd : CreateTableCmd) : List (Option String) :=
  [reject cmd.keySchema.hash.isEmpty "A table primary key must specify a partition (HASH) key.",
    reject (!cmd.keySchema.isSingleKey)
      ("Composite keys are supported only on GSIs. A table primary key must have " ++
        "one partition key and an optional sort key.")]

def checkLsi (lsi : Lsi) : List (Option String) :=
  [reject lsi.keySchema.hash.isEmpty
      ("LSI " ++ lsi.name ++ " must specify a partition (HASH) key."),
    reject (!lsi.keySchema.isSingleKey)
      ("Composite keys are supported only on GSIs. LSI " ++ lsi.name ++
        " must have one partition key and an optional sort key.")]

def checkGsiKey (name : String) (ks : KeySchema) : List (Option String) :=
  [reject ks.hash.isEmpty ("GSI " ++ name ++ " must specify a partition (HASH) key."),
    reject (ks.hash.length > 4 || ks.range.length > 4)
      ("GSI " ++ name ++ " key schema exceeds the 4-attribute limit per partition/sort key.")]

def isDeclared (cmd : CreateTableCmd) (name : String) : Bool :=
  cmd.attributeDefinitions.any fun a => a.name = name

def checkVectorIndex (cmd : CreateTableCmd) (vi : VectorIndexDef) : List (Option String) :=
  reject (isDeclared cmd vi.vectorAttr)
      ("The vector attribute " ++ vi.vectorAttr ++ " of vector index " ++ vi.indexName ++
        " must not be declared in the attribute list (it is a vector, not a scalar key).") ::
    (vi.searchSchema.map fun e => reject (!isDeclared cmd e.attr)
      ("The search-key attribute " ++ e.attr ++ " of vector index " ++ vi.indexName ++
        " must be declared in the attribute list.")) ++
    (if vi.projection.type = .include then
      vi.projection.nonKeyAttributes.map fun a => reject (!isDeclared cmd a)
        ("The projected attribute " ++ a ++ " of vector index " ++ vi.indexName ++
          " must be declared in the attribute list.")
    else [])

def validateKeySchemas (cmd : CreateTableCmd) : Except Error Unit :=
  firstError (checkTableKey cmd ++ cmd.lsis.flatMap checkLsi ++
    (cmd.gsis.flatMap fun gsi => checkGsiKey gsi.name gsi.keySchema) ++
    cmd.vectorIndexes.flatMap (checkVectorIndex cmd))

def createTableRequest (cmd : CreateTableCmd) : CreateTableIn where
  tableName := cmd.tableName
  attributeDefinitions := cmd.attributeDefinitions
  keySchema := cmd.keySchema
  billing := cmd.billing
  warm := cmd.warm
  gsis := cmd.gsis
  lsis := cmd.lsis
  vectorIndexes := cmd.vectorIndexes
  stream := cmd.stream
  sse := cmd.sse
  tableClass := cmd.tableClass
  deletionProtection := cmd.deletionProtection
  tags := cmd.tags

/-- IF NOT EXISTS probes the table; an error of the probe counts as missing. -/
def createProbe (cmd : CreateTableCmd) : Exec Bool :=
  if cmd.ifNotExists then do
    let described ← attempt (.describeTable cmd.tableName)
    return described.toBool
  else return false

def executeCreateTable (cmd : CreateTableCmd) : Exec ExecOutcome := do
  ofExcept (validateKeySchemas cmd)
  if ← createProbe cmd then return .status "CREATE" []
  else do
    call (.createTable (createTableRequest cmd))
    if !cmd.nowait then call (.waitForTableActive cmd.tableName)
    return .status "CREATE" []

/-- The CREATE token is shown even when explaining. -/
def executeCreateTableExplain (cmd : CreateTableCmd) : Exec ExecOutcome := do
  ofExcept (validateKeySchemas cmd)
  if ← createProbe cmd then return .explain [] (some "CREATE")
  else do
    let block ← explainBlock "CreateTable" (.createTable (createTableRequest cmd))
    return .explain [block] (some "CREATE")

/-! ### ALTER TABLE -/

def alterTableRequest (cmd : AlterTableCmd) : UpdateTableIn where
  tableName := cmd.table
  billing := cmd.billing
  warm := cmd.warm
  sse := cmd.sse
  stream := cmd.stream
  tableClass := cmd.tableClass
  deletionProtection := cmd.deletionProtection
  attributeDefinitions := cmd.attributeDefinitions
  gsiUpdates := cmd.gsiUpdates
  vectorIndexUpdates := cmd.vectorIndexUpdates

def checkGsiUpdate (update : GsiUpdate) : List (Option String) :=
  match update.action, update.keySchema with
  | .create, some ks => checkGsiKey update.indexName ks
  | _, _ => []

def validateGsiUpdates (cmd : AlterTableCmd) : Except Error Unit :=
  firstError (cmd.gsiUpdates.flatMap checkGsiUpdate)

def onDemandGsiIgnored : String :=
  "Setting table to on-demand, ignoring specifications for indices."

def executeAlterTable (cmd : AlterTableCmd) : Exec ExecOutcome := do
  ofExcept (validateGsiUpdates cmd)
  call (.updateTable (alterTableRequest cmd))
  return .status "ALTER" (if cmd.ignoredGsiOnDemand then [onDemandGsiIgnored] else [])

def executeAlterTableExplain (cmd : AlterTableCmd) : Exec ExecOutcome := do
  ofExcept (validateGsiUpdates cmd)
  explainOne "UpdateTable" (.updateTable (alterTableRequest cmd))

/-- The time to live is described first, also when explaining. Disabling a
disabled one is done without a request. -/
def executeAlterTtl (cmd : AlterTtlCmd) (explain : Bool) : Exec ExecOutcome := do
  let probe ← call (.describeTimeToLive cmd.table)
  if probe.status = "DISABLED" ∧ cmd.enabled = false then return .status "ALTER" []
  else do
    let request : UpdateTimeToLiveIn := {
      tableName := cmd.table
      enabled := cmd.enabled
      attributeName := if cmd.enabled then cmd.attr else probe.attributeName }
    if explain then explainOne "UpdateTimeToLive" (.updateTimeToLive request)
    else do
      call (.updateTimeToLive request)
      return .status "ALTER" []

def executeAlterPitr (cmd : AlterPitrCmd) (explain : Bool) : Exec ExecOutcome :=
  let request : UpdateContinuousBackupsIn := { tableName := cmd.table, enabled := cmd.enabled }
  if explain then explainOne "UpdateContinuousBackupsRequest" (.updateContinuousBackups request)
  else do
    call (.updateContinuousBackups request)
    return .status "ALTER" []

def executeAlterReplica (cmd : AlterReplicaCmd) (explain : Bool) : Exec ExecOutcome :=
  let request : UpdateTableIn := { tableName := cmd.table, replica := some cmd.replica }
  if explain then explainOne "UpdateTable" (.updateTable request)
  else do
    call (.updateTable request)
    return .status "ALTER" []

/-! ### Backups -/

def executeCreateBackup (cmd : CreateBackupCmd) (explain : Bool) : Exec ExecOutcome :=
  let request : CreateBackupIn := { tableName := cmd.table, backupName := cmd.backupName }
  if explain then explainOne "CreateBackup" (.createBackup request)
  else do
    call (.createBackup request)
    return .status "BACKUP" []

def executeDropBackup (cmd : DropBackupCmd) (explain : Bool) : Exec ExecOutcome :=
  if explain then explainOne "DeleteBackup" (.deleteBackup cmd.backupArn)
  else do
    call (.deleteBackup cmd.backupArn)
    return .status "DROP BACKUP" []

def backupKeyText (keySchema : List BackupKeySchemaElement) : String :=
  ", ".intercalate (keySchema.map fun kse => kse.keyType ++ " " ++ kse.attributeName)

def backupReport (b : DescribeBackupOut) : List String :=
  ["Table Name: " ++ b.sourceTableName, "Table Id: " ++ b.sourceTableId,
    "Table Arn: " ++ b.sourceTableArn,
    "Table Size (bytes): " ++ toString b.tableSizeBytes,
    "Item Count: " ++ toString b.itemCount,
    "Table Key: ( " ++ backupKeyText b.keySchema ++ " )",
    "Table Creation Date/Time: " ++ b.tableCreationDatetime] ++
  (b.billingMode.map fun mode => "Billing Mode: " ++ mode).toList ++
  (b.provisioned.map fun (rcu, wcu) =>
    "Provisioned Throughput: " ++ toString rcu ++ " RCU, " ++ toString wcu ++ " WCU").toList ++
  ["Backup Name: " ++ b.backupName, "Backup Arn: " ++ b.backupArn,
    "Backup Size (bytes): " ++ toString b.backupSizeBytes,
    "Backup Status: " ++ b.backupStatus, "Backup Type: " ++ b.backupType,
    "Backup Creation Date/Time: " ++ b.backupCreationDatetime,
    "Backup Expiry Date/Time: " ++ b.backupExpiryDatetime]

def executeDescribeBackup (cmd : DescribeBackupCmd) (explain : Bool) : Exec ExecOutcome :=
  if explain then explainOne "DescribeBackup" (.describeBackup cmd.backupArn)
  else do
    let out ← call (.describeBackup cmd.backupArn)
    return .report (backupReport out)

def executeRestore (cmd : RestoreCmd) (explain : Bool) : Exec ExecOutcome :=
  match cmd.kind with
  | .fromBackup =>
      let request : RestoreFromBackupIn :=
        { targetTableName := cmd.target, backupArn := cmd.source }
      if explain then explainOne "RestoreTableFromBackup" (.restoreFromBackup request)
      else do
        call (.restoreTableFromBackup request)
        return .status "RESTORE" []
  | .toPitr =>
      let request : RestoreToPitrIn :=
        { sourceTableName := cmd.source, targetTableName := cmd.target,
          restoreDatetime := cmd.timestamp }
      if explain then explainOne "RestoreTableToPointInTimeRequest" (.restoreToPitr request)
      else do
        call (.restoreTableToPointInTime request)
        return .status "RESTORE" []

/-! ### DESCRIBE -/

def explainAll : List (String × ExplainRequest × ExplainFormat) → Exec (List ExplainBlock)
  | [] => return []
  | (apiName, request, format) :: rest => do
      let block ← explainBlock apiName request
      let blocks ← explainAll rest
      return { block with format := format } :: blocks

def executeDescribeExplain (cmd : DescribeCmd) : Exec ExecOutcome := do
  let blocks ← explainAll [
    ("DescribeTable", .describeTable cmd.table, .compact),
    ("DescribeTimeToLive", .describeTimeToLive cmd.table, .compact),
    ("DescribeContinuousBackups", .describeContinuousBackups cmd.table, .pretty),
    ("DescribeTableReplicaAutoScaling", .describeTableReplicaAutoScaling cmd.table, .pretty)]
  return .explain blocks none

/-! ### The session -/

def emitSingle (x : Exec ExecOutcome) : Exec Unit := do
  let outcome ← x
  emit outcome

/-- `Session::execute` of a statement that carries the EXPLAIN flag. -/
def executeExplained (budget : Nat) : Explainable → Exec Unit
  | .select cmd => do
      let aliasPrefix ← Exec.nextPrefix
      emitSingle (executeSelectExplain cmd aliasPrefix)
  | .insert cmd => emitSingle (executeInsertExplain cmd)
  | .update cmd => executeUpdate budget cmd true
  | .delete cmd => executeDelete budget cmd true
  | .transact cmd => executeTransact cmd true
  | .dropTable cmd => emitSingle (executeDropTableExplain cmd)
  | .describe cmd => emitSingle (executeDescribeExplain cmd)
  | .createTable cmd => emitSingle (executeCreateTableExplain cmd)
  | .alterTable cmd => emitSingle (executeAlterTableExplain cmd)
  | .alterTtl cmd => emitSingle (executeAlterTtl cmd true)
  | .alterPitr cmd => emitSingle (executeAlterPitr cmd true)
  | .alterReplica cmd => emitSingle (executeAlterReplica cmd true)
  | .createBackup cmd => emitSingle (executeCreateBackup cmd true)
  | .dropBackup cmd => emitSingle (executeDropBackup cmd true)
  | .describeBackup cmd => emitSingle (executeDescribeBackup cmd true)
  | .restore cmd => emitSingle (executeRestore cmd true)

/-- `Session::execute` of a statement without it. -/
def executePlain (budget : Nat) : Explainable → Exec Unit
  | .select cmd => do
      let aliasPrefix ← Exec.nextPrefix
      emitSingle (executeSelect budget cmd aliasPrefix)
  | .insert cmd => executeInsertStreaming cmd
  | .update cmd => executeUpdate budget cmd false
  | .delete cmd => executeDelete budget cmd false
  | .transact cmd => executeTransact cmd false
  | .dropTable cmd => emitSingle (executeDropTable cmd)
  | .describe cmd => emitSingle (executeDescribe cmd)
  | .createTable cmd => emitSingle (executeCreateTable cmd)
  | .alterTable cmd => emitSingle (executeAlterTable cmd)
  | .alterTtl cmd => emitSingle (executeAlterTtl cmd false)
  | .alterPitr cmd => emitSingle (executeAlterPitr cmd false)
  | .alterReplica cmd => emitSingle (executeAlterReplica cmd false)
  | .createBackup cmd => emitSingle (executeCreateBackup cmd false)
  | .dropBackup cmd => emitSingle (executeDropBackup cmd false)
  | .describeBackup cmd => emitSingle (executeDescribeBackup cmd false)
  | .restore cmd => emitSingle (executeRestore cmd false)

end DdbShell
