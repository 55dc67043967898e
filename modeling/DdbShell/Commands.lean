import DdbShell.Client

/-!
The remaining commands of the parsed command model: INSERT and REPLACE,
transactions, and the table, backup and restore statements. `Explainable` are
the alternatives of the grammar's `explainable`.
-/

namespace DdbShell

/-- INSERT, or REPLACE when `insert` is off. A row lists its values by column. -/
structure InsertCmd where
  tableName : String
  columns : List String
  rows : List (List Value)
  insert : Bool := true
  ratelimit : Bool := false
  returnValue : ReturnValue := .none

inductive TransactAccess where
  | read
  | write
  deriving DecidableEq, Repr

/-- An inner command node. A `placeholder` is any node the grammar does not
put into a transaction. -/
inductive TransactItem where
  | select (cmd : SelectCmd)
  | insert (cmd : InsertCmd)
  | update (cmd : UpdateCmd)
  | delete (cmd : DeleteCmd)
  | placeholder

structure TransactCmd where
  access : TransactAccess := .read
  rollback : Bool := false
  items : List TransactItem := []

structure DescribeCmd where
  table : String
  deriving DecidableEq, Repr

structure DropTableCmd where
  table : String
  ifExists : Bool := false
  nowait : Bool := false
  deriving DecidableEq, Repr

structure CreateTableCmd where
  tableName : String
  ifNotExists : Bool := false
  nowait : Bool := false
  attributeDefinitions : List AttributeDef := []
  keySchema : KeySchema := {}
  billing : Option BillingModeAndThroughput := none
  warm : Option WarmThroughput := none
  gsis : List Gsi := []
  lsis : List Lsi := []
  vectorIndexes : List VectorIndexDef := []
  stream : Option StreamSpec := none
  sse : Option SseSpec := none
  tableClass : TableClass := .standard
  deletionProtection : Bool := false
  tags : List Tag := []
  deriving DecidableEq, Repr

structure AlterTableCmd where
  table : String
  billing : Option BillingModeAndThroughput := none
  warm : Option WarmThroughput := none
  sse : Option SseSpec := none
  stream : Option StreamSpec := none
  tableClass : Option TableClass := none
  deletionProtection : Option Bool := none
  attributeDefinitions : List AttributeDef := []
  gsiUpdates : List GsiUpdate := []
  vectorIndexUpdates : List VectorIndexUpdateDef := []
  ignoredGsiOnDemand : Bool := false
  deriving DecidableEq, Repr

structure AlterTtlCmd where
  table : String
  enabled : Bool := false
  attr : String := ""
  deriving DecidableEq, Repr

structure AlterPitrCmd where
  table : String
  enabled : Bool := false
  deriving DecidableEq, Repr

structure AlterReplicaCmd where
  table : String
  replica : ReplicaUpdate
  deriving DecidableEq, Repr

structure CreateBackupCmd where
  table : String
  backupName : String
  deriving DecidableEq, Repr

structure DropBackupCmd where
  backupArn : String
  deriving DecidableEq, Repr

structure DescribeBackupCmd where
  backupArn : String
  deriving DecidableEq, Repr

inductive RestoreKind where
  | fromBackup
  | toPitr
  deriving DecidableEq, Repr

structure RestoreCmd where
  kind : RestoreKind := .fromBackup
  target : String
  source : String
  timestamp : String := ""
  deriving DecidableEq, Repr

inductive Explainable where
  | select (cmd : SelectCmd)
  | insert (cmd : InsertCmd)
  | update (cmd : UpdateCmd)
  | delete (cmd : DeleteCmd)
  | transact (cmd : TransactCmd)
  | dropTable (cmd : DropTableCmd)
  | describe (cmd : DescribeCmd)
  | createTable (cmd : CreateTableCmd)
  | alterTable (cmd : AlterTableCmd)
  | alterTtl (cmd : AlterTtlCmd)
  | alterPitr (cmd : AlterPitrCmd)
  | alterReplica (cmd : AlterReplicaCmd)
  | createBackup (cmd : CreateBackupCmd)
  | dropBackup (cmd : DropBackupCmd)
  | describeBackup (cmd : DescribeBackupCmd)
  | restore (cmd : RestoreCmd)

end DdbShell
