import DdbShell.Calls
import DdbShell.Parser.Statements

/-!
SHOW TABLES, SHOW BACKUPS and SHOW LIMITS. They go by the names that the
service lists; a table that cannot be described any more is shown by its name,
and counts for nothing in the limits.
-/

namespace DdbShell

open Exec (attempt call ofExcept)

/-! ### SHOW TABLES -/

def billingModeColumn (td : DescribeTableOut) : String :=
  match td.billingModeSummary with
  | some summary => summary
  | none => if td.provisionedThroughputSet then "PROVISIONED" else "PAY_PER_REQUEST*"

def tableClassColumn (td : DescribeTableOut) : String := td.tableClassSummary.getD "STANDARD*"

def ttlColumn (ttl : TimeToLiveOut) : String :=
  if ttl.status = "ENABLED" ∨ ttl.status = "ENABLING" then
    ttl.status ++ " (" ++ ttl.attributeName ++ ")"
  else ttl.status

def statusRow (name : String) (td : DescribeTableOut) (ttl : TimeToLiveOut) : String :=
  name ++ " | " ++ td.tableStatus ++ " | " ++ billingModeColumn td ++ " | " ++
    tableClassColumn td ++ " | " ++ td.tableId ++ " | " ++ td.tableArn ++
    " | TTL " ++ ttlColumn ttl ++
    " | GSI: " ++ toString td.globalSecondaryIndexes.length ++
    " | LSI : " ++ toString td.localSecondaryIndexes.length ++
    " | VSI : " ++ toString td.vectorIndexes.length ++ " |"

/-- A full row needs both descriptions. -/
def showTable (brief : Bool) (name : String) : Exec String :=
  if brief then return name
  else do
    match ← attempt (.describeTable name) with
    | .error _ => return name
    | .ok td =>
        match ← attempt (.describeTimeToLive name) with
        | .error _ => return name
        | .ok ttl => return statusRow name td ttl

def showTableRows (brief : Bool) : List String → Exec (List String)
  | [] => return []
  | name :: names => do
      let row ← showTable brief name
      let rows ← showTableRows brief names
      return row :: rows

/-- The regular expressions: what matches a pattern, or what is wrong with it. -/
abbrev LikePatterns := String → Except String (String → Bool)

/-- Without LIKE every name matches. -/
def likeMatcher (patterns : LikePatterns) (like : String) : Except Error (String → Bool) :=
  if like = "" then .ok fun _ => true
  else
    match patterns like with
    | .ok matcher => .ok matcher
    | .error what => .error ⟨.parseError, "Invalid LIKE pattern: " ++ what⟩

def executeShowTables (patterns : LikePatterns) (cmd : ShowTablesCmd) : Exec ExecOutcome := do
  let matcher ← ofExcept (likeMatcher patterns cmd.like)
  let names ← call .listTables
  let rows ← showTableRows cmd.brief (names.filter matcher)
  return .report rows

/-! ### SHOW BACKUPS -/

def backupLine (s : BackupSummaryRow) : String :=
  "Table: " ++ s.tableName ++ ", Backup: " ++ s.backupName ++ ", Status: " ++ s.backupStatus ++
    ", ARN: " ++ s.backupArn ++ ", On: " ++ s.creationDatetime ++
    ", Expires: " ++ s.expiryDatetime

def showBackupsRequest (cmd : ShowBackupsCmd) : ListBackupsIn where
  tableName := nonEmpty cmd.table
  backupType := nonEmpty cmd.backupType

def showBackupsLoop : Nat → ListBackupsIn → List String → Exec (List String)
  | 0, _, _ => Exec.cut
  | budget + 1, request, lines => do
      let page ← call (.listBackups request)
      let lines := lines ++ page.summaries.map backupLine
      match page.lastEvaluatedBackupArn with
      | none => return lines
      | some arn =>
          showBackupsLoop budget { request with exclusiveStartBackupArn := some arn } lines

def executeShowBackups (budget : Nat) (cmd : ShowBackupsCmd) : Exec ExecOutcome := do
  let lines ← showBackupsLoop budget (showBackupsRequest cmd) []
  return .report lines

/-! ### SHOW LIMITS -/

structure ThroughputSums where
  rcus : Int := 0
  wcus : Int := 0
  gsircus : Int := 0
  gsiwcus : Int := 0

/-- A table on demand counts for nothing. -/
def ThroughputSums.add (sums : ThroughputSums) (td : DescribeTableOut) : ThroughputSums :=
  if td.billingModeSummary = some "PROVISIONED" ∨ td.provisionedThroughputSet = true then {
    rcus := sums.rcus + td.provisionedReadCapacityUnits
    wcus := sums.wcus + td.provisionedWriteCapacityUnits
    gsircus := sums.gsircus +
      (td.globalSecondaryIndexes.map fun gsi => gsi.provisionedReadCapacityUnits).sum
    gsiwcus := sums.gsiwcus +
      (td.globalSecondaryIndexes.map fun gsi => gsi.provisionedWriteCapacityUnits).sum }
  else sums

def sumThroughput : ThroughputSums → List String → Exec ThroughputSums
  | sums, [] => return sums
  | sums, name :: names => do
      match ← attempt (.describeTable name) with
      | .ok td => sumThroughput (sums.add td) names
      | .error _ => sumThroughput sums names

/-- The two lines of figures of the account, and the three of the tables. -/
def limitsReport (region : String) (limits : DescribeLimitsOut) (sums : ThroughputSums) :
    List String :=
  ["Region: " ++ region,
    "Account Max (RCU, WCU): " ++ toString limits.accountMaxRcu ++ ", " ++
      toString limits.accountMaxWcu,
    "Table Max (RCU, WCU):  " ++ toString limits.tableMaxRcu ++ ", " ++
      toString limits.tableMaxWcu,
    "Total Tables (RCU, WCU): " ++ toString sums.rcus ++ ", " ++ toString sums.wcus,
    "Total GSI (RCU, WCU): " ++ toString sums.gsircus ++ ", " ++ toString sums.gsiwcus,
    "Total (RCU, WCU): " ++ toString (sums.rcus + sums.gsircus) ++ ", " ++
      toString (sums.wcus + sums.gsiwcus)]

/-- The region is the session's own. -/
def executeShowLimits (region : String) : Exec ExecOutcome := do
  let limits ← call .describeLimits
  let names ← call .listTables
  let sums ← sumThroughput {} names
  return .report (limitsReport region limits sums)

end DdbShell
