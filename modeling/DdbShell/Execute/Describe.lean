import DdbShell.Calls

/-!
DESCRIBE: the report on a table. What is not told of the table itself, its
backups and its replicas, is left out where the service does not answer.
-/

namespace DdbShell

open Exec (attempt call)

/-! ### Names and keys -/

def scalarTypeName : ScalarType → String
  | .n => "N"
  | .b => "B"
  | .s => "S"

def projectionTypeName : ProjectionType → String
  | .keysOnly => "KEYS_ONLY"
  | .include => "INCLUDE"
  | .all => "ALL"

def vectorDistanceName : VectorDistance → String
  | .euclidean => "EUCLIDEAN"
  | .dotProduct => "DOT_PRODUCT"
  | .cosine => "COSINE"

/-- Joined by commas from the first name on that is not empty. -/
def joinNames (names : List String) : String :=
  names.foldl (fun out name => if out = "" then name else out ++ ", " ++ name) ""

def vectorSearchSchemaText (schema : List SearchSchemaElem) : String :=
  joinNames (schema.map fun e =>
    e.attr ++ " (" ++ (if e.kind = .hash then "HASH" else "INLINE_FILTER") ++ ")")

def keySchemaText (ks : TableKeySchema) : String :=
  ", ".intercalate (ks.hashKeys.map ("HASH " ++ ·) ++ ks.rangeKeys.map ("RANGE " ++ ·))

def projectionText (projection : Projection) : String :=
  if projection.type = .include then
    "Projecting (INCLUDE) (" ++ joinNames projection.nonKeyAttributes ++ ")"
  else "Projecting (" ++ projectionTypeName projection.type ++ ")"

/-- Read and write units. -/
def unitsText (read write : Int) : String := toString read ++ " RCU, " ++ toString write ++ " WCU"

def warmThroughputText (w : WarmThroughputDescription) : String :=
  "Warm Throughput: (" ++ unitsText w.readUnitsPerSecond w.writeUnitsPerSecond ++ ", Status " ++
    w.status ++ ")"

/-! ### The report -/

def attributesLine (td : DescribeTableOut) : String :=
  "Attributes: " ++ ", ".intercalate (td.attributeDefinitions.map fun a =>
    " " ++ a.name ++ ", " ++ scalarTypeName a.type)

def basicInfoLines (td : DescribeTableOut) : List String :=
  ["Name: " ++ td.tableName ++ " (" ++ td.tableStatus ++ ")",
    "Key: " ++ keySchemaText td.keySchema, attributesLine td,
    "Created at: " ++ td.creationDateTime, "Table ARN: " ++ td.tableArn,
    "Table ID: " ++ td.tableId, "Table size (bytes): " ++ toString td.tableSizeBytes,
    "Item Count: " ++ toString td.itemCount,
    "Deletion Protection: " ++ (if td.deletionProtectionEnabled then "Enabled" else "Disabled")]

def billingModeLines (td : DescribeTableOut) : List String :=
  let provisioned := "Billing Mode: Provisioned (" ++
    unitsText td.provisionedReadCapacityUnits td.provisionedWriteCapacityUnits ++ ")"
  match td.billingModeSummary with
  | some summary =>
      if summary = "PROVISIONED" then [provisioned]
      else if summary = "PAY_PER_REQUEST" then
        "Billing Mode: On Demand" ::
          (if td.onDemandThroughputSet then
            ["On Demand Throughput: (" ++
              unitsText td.onDemandMaxReadRequestUnits td.onDemandMaxWriteRequestUnits ++ ")"]
          else [])
      else ["Unknown Billing mode " ++ summary ++ "."]
  | none => if td.provisionedThroughputSet then [provisioned] else []

/-- A line for a setting that is on or off, and none for any other. -/
def pitrLines (cb : ContinuousBackupsOut) : List String :=
  if cb.pitrStatus = "ENABLED" then
    ["PITR is Enabled: [" ++ cb.earliestRestorableDateTime ++ " to " ++
      cb.latestRestorableDateTime ++ "]"]
  else if cb.pitrStatus = "DISABLED" then ["PITR is Disabled."]
  else []

def gsiBilling (onDemand : Bool) (gsi : SecondaryIndexSchema) : String :=
  if !onDemand then
    " Provisioned (" ++
      unitsText gsi.provisionedReadCapacityUnits gsi.provisionedWriteCapacityUnits ++ "), "
  else
    "Billing Mode: On Demand (mirrors table), " ++
      (if gsi.onDemandThroughputSet then
        "Throughput (" ++
          unitsText gsi.onDemandMaxReadRequestUnits gsi.onDemandMaxWriteRequestUnits ++ "), "
      else "")

def gsiLine (onDemand : Bool) (gsi : SecondaryIndexSchema) : String :=
  "GSI " ++ gsi.indexName ++ ": ( " ++ keySchemaText gsi.keySchema ++ " ), " ++
    gsiBilling onDemand gsi ++ (if gsi.projectionSet then projectionText gsi.projection else "") ++
    ", Status: " ++ gsi.indexStatus ++
    ", Backfilling: " ++ (if gsi.backfilling then "YES" else "NO") ++
    (match gsi.warmThroughput with
      | some w => ", " ++ warmThroughputText w
      | none => "")

def gsiLines (td : DescribeTableOut) : List String :=
  if td.globalSecondaryIndexes.isEmpty then ["GSI: None"]
  else td.globalSecondaryIndexes.map (gsiLine td.onDemand)

/-- All local indexes are on one line. -/
def lsiLine (td : DescribeTableOut) : String :=
  if td.localSecondaryIndexes.isEmpty then "LSI: None"
  else String.join (td.localSecondaryIndexes.map fun lsi =>
    "LSI " ++ lsi.indexName ++ ": ( " ++ keySchemaText lsi.keySchema ++ " ), ")

def vsiLine (vi : VectorIndexSchema) : String :=
  let schema := vectorSearchSchemaText vi.searchSchema
  "VSI " ++ vi.indexName ++ ": Vector Attribute: " ++ vi.vectorAttr ++
    ", Dimensions: " ++ toString vi.dimensions ++
    ", Distance: " ++ vectorDistanceName vi.distance ++
    (if schema ≠ "" then ", Search Schema: ( " ++ schema ++ " )" else "") ++
    (if vi.projectionSet then ", " ++ projectionText vi.projection else "") ++
    ", Status: " ++ vi.indexStatus

def vsiLines (td : DescribeTableOut) : List String :=
  if td.vectorIndexes.isEmpty then ["VSI: None"] else td.vectorIndexes.map vsiLine

def settingLines (td : DescribeTableOut) : List String :=
  [match td.streamViewType with
    | some view => "Stream: " ++ view
    | none => "Stream: Disabled",
    match td.tableClassSummary with
    | some tableClass => "Table Class: " ++ tableClass
    | none => "Table Class: Has not been set.",
    match td.sseStatus with
    | some status => "SSE: (" ++ status ++ ")"
    | none => "SSE: Not set"]

def replicaLine (r : ReplicaAutoScalingDescription) : String :=
  "Replica Region: " ++ r.regionName ++ " (Status: " ++ r.replicaStatus ++ ")"

def describeReport (td : DescribeTableOut) (pitr : Option ContinuousBackupsOut)
    (replicas : Option (List ReplicaAutoScalingDescription)) : List String :=
  basicInfoLines td ++ billingModeLines td ++ (td.warmThroughput.map warmThroughputText).toList ++
    (pitr.map pitrLines).getD [] ++ gsiLines td ++ [lsiLine td] ++ vsiLines td ++
    settingLines td ++ (replicas.map (List.map replicaLine)).getD []

/-- An error of any but the first call is passed over. -/
def executeDescribe (cmd : DescribeCmd) : Exec ExecOutcome := do
  let td ← call (.describeTable cmd.table)
  -- the answer is not used
  let _ ← attempt (.describeTimeToLive cmd.table)
  let pitr ← attempt (.describeContinuousBackups cmd.table)
  let scaling ← attempt (.describeTableReplicaAutoScaling cmd.table)
  return .report (describeReport td pitr.toOption scaling.toOption)

end DdbShell
