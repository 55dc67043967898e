import DdbShell.Calls
import DdbShell.Parser.Reading

/-!
SHOW CREATE TABLE: the statement that a table's description is written back as.
Nothing in a name is escaped, and the names of an INCLUDE projection have no
quotes around them.
-/

namespace DdbShell

open Exec (attempt throw)

/-! ### Names, keys and numbers -/

/-- One attribute stands bare, several in parentheses. -/
def keyAttributes : List String → List Char
  | [attr] => quoteName attr
  | attrs => "(".toList ++ (commaSeparated (attrs.map quoteName) ++ ")".toList)

def keyGroup (attrs : List String) (keyType : List Char) : List (List Char) :=
  if attrs.isEmpty then [] else [keyAttributes attrs ++ keyType]

def keyDescription (ks : TableKeySchema) : List Char :=
  commaSeparated (keyGroup ks.hashKeys " HASH".toList ++ keyGroup ks.rangeKeys " RANGE".toList)

def billingModeProvisioned (rcu wcu : Int) : List Char :=
  "BILLING MODE PROVISIONED ( ".toList ++
    (numeral rcu ++ (" RCU, ".toList ++ (numeral wcu ++ " WCU ) ".toList)))

def billingModeOnDemand : List Char := "BILLING MODE ON DEMAND ".toList

/-! ### Indexes -/

def projectionDdl (p : Projection) : List Char :=
  match p.type with
  | .all => "PROJECTING ALL".toList
  | .keysOnly => "PROJECTING KEYS ONLY".toList
  | .include =>
      "PROJECTING INCLUDE (".toList ++
        (commaSeparated (p.nonKeyAttributes.map String.toList) ++ ")".toList)

/-- An index clause: nothing for no index. -/
def indexClause (opening : String) (indexes : List (List Char)) : List Char :=
  if indexes.isEmpty then []
  else opening.toList ++ (commaSeparated indexes ++ ") ".toList)

def gsiDdl (tableOnDemand : Bool) (gsi : SecondaryIndexSchema) : List Char :=
  quoteName gsi.indexName ++ (" ON ( ".toList ++ (keyDescription gsi.keySchema ++ (" ) ".toList ++
    (projectionDdl gsi.projection ++ (" ".toList ++
      if tableOnDemand then billingModeOnDemand
      else billingModeProvisioned gsi.provisionedReadCapacityUnits
        gsi.provisionedWriteCapacityUnits)))))

def showGsis (gsis : List SecondaryIndexSchema) (tableOnDemand : Bool) : List Char :=
  indexClause "GSI (" (gsis.map (gsiDdl tableOnDemand))

def lsiDdl (lsi : SecondaryIndexSchema) : List Char :=
  quoteName lsi.indexName ++ (" ON ( ".toList ++ (keyDescription lsi.keySchema ++ (" ) ".toList ++
    (projectionDdl lsi.projection ++ " ".toList))))

def showLsis (lsis : List SecondaryIndexSchema) : List Char :=
  indexClause "LSI (" (lsis.map lsiDdl)

def vsiDistanceDdl : VectorDistance → List Char
  | .euclidean => "EUCLIDEAN".toList
  | .dotProduct => "DOT_PRODUCT".toList
  | .cosine => "COSINE".toList

def searchElementDdl (element : SearchSchemaElem) : List Char :=
  quoteName element.attr ++
    match element.kind with
    | .hash => " HASH".toList
    | .inlineFilter => " FILTER".toList

def searchSchemaDdl (elements : List SearchSchemaElem) : List Char :=
  if elements.isEmpty then []
  else
    " SEARCH KEY ( ".toList ++
      (commaSeparated (elements.map searchElementDdl) ++ " )".toList)

/-- What a vector index projects: everything, where the answer does not say. -/
def VectorIndexSchema.shownProjection (vi : VectorIndexSchema) : Projection :=
  if vi.projectionSet then vi.projection else { type := .all }

def vsiDdl (vi : VectorIndexSchema) : List Char :=
  quoteName vi.indexName ++ (" ON ".toList ++ (quoteName vi.vectorAttr ++
    (" DIMENSIONS ".toList ++ (numeral vi.dimensions ++ (" DISTANCE ".toList ++
      (vsiDistanceDdl vi.distance ++ (searchSchemaDdl vi.searchSchema ++ (" ".toList ++
        projectionDdl vi.shownProjection))))))))

def showVsis (vsis : List VectorIndexSchema) : List Char :=
  indexClause "VSI (" (vsis.map vsiDdl)

/-! ### The statement -/

def attributeDdl (d : AttributeDef) : List Char :=
  quoteName d.name ++
    match d.type with
    | .s => " string".toList
    | .n => " number".toList
    | .b => " binary".toList

def billingDdl (td : DescribeTableOut) : List Char :=
  let provisioned :=
    billingModeProvisioned td.provisionedReadCapacityUnits td.provisionedWriteCapacityUnits
  match td.billingModeSummary with
  | some summary =>
      if summary = "PROVISIONED" then provisioned
      else if summary = "PAY_PER_REQUEST" then billingModeOnDemand
      else []
  | none => if td.provisionedThroughputSet then provisioned else []

def streamViewWords (mapped : String) : List Char :=
  if mapped = "NEW_IMAGE" then "NEW IMAGE".toList
  else if mapped = "OLD_IMAGE" then "OLD IMAGE".toList
  else if mapped = "KEYS_ONLY" then "KEYS ONLY".toList
  else if mapped = "NEW_AND_OLD_IMAGES" then "BOTH IMAGES".toList
  else mapped.toList

def streamDdl (td : DescribeTableOut) : List Char :=
  if td.streamSpecificationSet then
    match td.streamViewType with
    | some mapped => "STREAM ( ".toList ++ (streamViewWords mapped ++ " ) ".toList)
    | none => "STREAM DISABLED ".toList
  else []

def tableClassDdl (td : DescribeTableOut) : List Char :=
  if td.tableClassSummary.getD "STANDARD" = "STANDARD_INFREQUENT_ACCESS" then
    "TABLE CLASS STANDARD INFREQUENT ACCESS ".toList
  else "TABLE CLASS STANDARD ".toList

def deletionProtectionDdl (td : DescribeTableOut) : List Char :=
  if td.deletionProtectionEnabled then "DELETION PROTECTION ENABLED".toList
  else "DELETION PROTECTION DISABLED".toList

def reconstructDdl (cmd : ShowCreateTableCmd) (td : DescribeTableOut) : List Char :=
  "CREATE TABLE ".toList ++ ((if cmd.ifNotExists then "IF NOT EXISTS ".toList else []) ++
    ((if cmd.nowait then "NOWAIT ".toList else []) ++ (quoteName td.tableName ++ (" (".toList ++
      (commaSeparated (td.attributeDefinitions.map attributeDdl) ++ (") PRIMARY KEY (".toList ++
        (keyDescription td.keySchema ++ (") ".toList ++ (billingDdl td ++
          (showGsis td.globalSecondaryIndexes td.onDemand ++
            (showLsis td.localSecondaryIndexes ++ (showVsis td.vectorIndexes ++
              (streamDdl td ++ (tableClassDdl td ++ deletionProtectionDdl td))))))))))))))

def executeShowCreateTable (cmd : ShowCreateTableCmd) : Exec ExecOutcome := do
  match ← attempt (.describeTable cmd.table) with
  | .error _ =>
      throw ⟨.noSuchTable, "The table \"" ++ cmd.table ++ "\" does not exist."⟩
  | .ok td =>
      if td.tableStatus ≠ "ACTIVE" then
        throw ⟨.invalidArgument, "The table \"" ++ cmd.table ++ "\" is not ACTIVE."⟩
      else do
        -- the answer is not used
        let _ ← attempt (.describeTimeToLive cmd.table)
        return .report [String.ofList (reconstructDdl cmd td)]

end DdbShell
