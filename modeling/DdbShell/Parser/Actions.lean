import DdbShell.Lib.Parses
import DdbShell.Parser.Halting
import DdbShell.Parser.Literal
import DdbShell.Parser.Statements
import DdbShell.Parser.WhereGrammar
import DdbShell.Parser.WholeNumber

/-!
The actions of the grammar. `Semantic` is the union of the values its symbols
have, and each production's action makes a value out of those before it; a
production is recognised by how many values there are and of what kind.
`statements` are the commands that `parse_batch` makes of a batch.
-/

namespace DdbShell

open Literal (stringValue)

/-! ### Values -/

inductive Semantic where
  | token (t : SymbolType)
  | string (s : String)
  | flag (b : Bool)
  | attributeType (type : ScalarType)
  | attribute (definition : AttributeDef)
  | attributes (list : List AttributeDef)
  | names (list : List String)
  | keyRole (isHash : Bool) (attrs : List String)
  | keySchema (ks : KeySchema)
  | billing (billing : BillingModeAndThroughput)
  | optionalBilling (billing : Option BillingModeAndThroughput)
  | warm (warm : WarmThroughput)
  | optionalWarm (warm : Option WarmThroughput)
  | projection (projection : Projection)
  | gsi (gsi : Gsi)
  | gsis (list : List Gsi)
  | gsiUpdate (update : GsiUpdate)
  | gsiUpdates (list : List GsiUpdate)
  | override (units : ProvisionedThroughputOverride)
  | optionalOverride (units : Option ProvisionedThroughputOverride)
  | replicaGsi (gsi : ReplicaGsi)
  | replicaGsis (list : List ReplicaGsi)
  | lsi (lsi : Lsi)
  | lsis (list : List Lsi)
  | vsiKeyword
  | distance (distance : VectorDistance)
  | searchElement (element : SearchSchemaElem)
  | searchSchema (list : List SearchSchemaElem)
  | vectorIndex (index : VectorIndexDef)
  | vectorIndexes (list : List VectorIndexDef)
  | streamViewType (type : StreamViewType)
  | stream (spec : StreamSpec)
  | optionalStream (spec : Option StreamSpec)
  | sse (spec : SseSpec)
  | optionalSse (spec : Option SseSpec)
  | tableClass (tableClass : TableClass)
  | tag (tag : Tag)
  | tags (list : List Tag)
  | value (v : Value)
  | values (list : List Value)
  | rows (list : List (List Value))
  | entries (map : List (String × Value))
  | rateLimit (limit : RateLimit)
  | optionalRateLimit (limit : Option RateLimit)
  | returnValue (value : ReturnValue)
  | setElement (element : UpdateSetElement)
  | setElements (list : List UpdateSetElement)
  | tableReference (reference : TableReference)
  | comparison (op : ComparisonToken)
  | condition (e : LogicalExpression)
  | clause (w : Where)
  | optionalClause (w : Option Where)
  | search (vector : Option Value) (topk : Option Int)
  | consumedCapacity (rcc : ReturnConsumedCapacity)
  | command (node : CommandNode)
  | transact (cmd : TransactCmd)
  | statement (statement : Option ParsedStatement)
  | other

namespace RuleAction

/-! ### Names and flags -/

def stringAction : List Semantic → Semantic
  | [.token t] => ((stringValue t).map .string).getD .other
  | _ => .other

/-- A clause that is there or not. -/
def flagAction (values : List Semantic) : Semantic := .flag !values.isEmpty

/-- The two alternatives of an optional clause. -/
def optionalAction {α : Type} (present : Semantic → Option α) (wrap : Option α → Semantic) :
    List Semantic → Semantic
  | [] => wrap none
  | [value] => ((present value).map fun a => wrap (some a)).getD .other
  | _ => .other

/-- The two alternatives of a list that grows to the left. -/
def listAction {α : Type} (element : Semantic → Option α) (elements : Semantic → Option (List α))
    (wrap : List α → Semantic) : List Semantic → Semantic
  | [value] => ((element value).map fun a => wrap [a]).getD .other
  | [list, _, value] =>
      match elements list, element value with
      | some as, some a => wrap (as ++ [a])
      | _, _ => .other
  | _ => .other

/-- The two alternatives of an index clause: a list in parentheses, or nothing. -/
def clauseAction {α : Type} (elements : Semantic → Option (List α)) (wrap : List α → Semantic) :
    List Semantic → Semantic
  | [] => wrap []
  | [_, _, list, _] => ((elements list).map wrap).getD .other
  | _ => .other

def asString : Semantic → Option String
  | .string s => some s
  | _ => none

def asNames : Semantic → Option (List String)
  | .names list => some list
  | _ => none

def namesAction : List Semantic → Semantic := listAction asString asNames .names

/-! ### Attributes -/

def attributeTypeAction : List Semantic → Semantic
  | [.token t] =>
      match t.kind with
      | .kind .kAttributeTypeNumber => .attributeType .n
      | .kind .kAttributeTypeString => .attributeType .s
      | .kind .kAttributeTypeBinary => .attributeType .b
      | _ => .other
  | _ => .other

def attributeAction : List Semantic → Semantic
  | [.string name, .attributeType type] => .attribute ⟨name, type⟩
  | _ => .other

def asAttribute : Semantic → Option AttributeDef
  | .attribute definition => some definition
  | _ => none

def asAttributes : Semantic → Option (List AttributeDef)
  | .attributes list => some list
  | _ => none

/-! ### Keys -/

/-- `primary_key` passes its third value on, and so does `optional_vector_search_schema`
its fourth. -/
def primaryKeyAction : List Semantic → Semantic
  | [_, _, .keySchema ks] => .keySchema ks
  | _ => .other

def keySchemaAction : List Semantic → Semantic
  | [_, .keySchema ks, _] => .keySchema ks
  | _ => .other

def keyRoleListAction : List Semantic → Semantic
  | [.keyRole isHash attrs] => .keySchema (({} : KeySchema).addKeyRole isHash attrs)
  | [.keySchema ks, _, .keyRole isHash attrs] => .keySchema (ks.addKeyRole isHash attrs)
  | _ => .other

def keyRoleAction : List Semantic → Semantic
  | [.names attrs, .token role] => .keyRole (role.kind = .kind .kHash) attrs
  | _ => .other

def keyAttrGroupAction : List Semantic → Semantic
  | [.string attr] => .names [attr]
  | [_, .names attrs, _] => .names attrs
  | _ => .other

/-! ### Throughput -/

/-- Two numbers with their units, in either order. -/
def units (m unit n : SymbolType) : Int × Int :=
  if unit.kind = .kind .kRcu then (parseLl m.lexeme, parseLl n.lexeme)
  else (parseLl n.lexeme, parseLl m.lexeme)

def billingAction : List Semantic → Semantic
  | [_, _, _, _] => .billing { mode := .payPerRequest }
  | [_, _, _, _, _, _, .token m, .token unit, _, .token n, _, _] =>
      .billing
        { mode := .payPerRequest
          od := ⟨some (units m unit n).1, some (units m unit n).2⟩ }
  | [_, _, _, _, _, _] =>
      .billing { mode := .payPerRequest, od := ⟨some (-1), some (-1)⟩ }
  | [_, _, _, _, .token m, .token unit, _, .token n, _, _] =>
      .billing { mode := .provisioned, rcu := (units m unit n).1, wcu := (units m unit n).2 }
  | _ => .other

def asBilling : Semantic → Option BillingModeAndThroughput
  | .billing billing => some billing
  | _ => none

def warmAction : List Semantic → Semantic
  | [_, _, _, .token m, .token unit, _, .token n, _, _] =>
      .warm ⟨(units m unit n).1, (units m unit n).2⟩
  | _ => .other

def asWarm : Semantic → Option WarmThroughput
  | .warm warm => some warm
  | _ => none

/-! ### Indexes -/

def projectionAction : List Semantic → Semantic
  | [_, _] => .projection ⟨.all, []⟩
  | [_, _, _] => .projection ⟨.keysOnly, []⟩
  | [_, _, _, .names list, _] => .projection ⟨.include, list⟩
  | _ => .other

def gsiAction : List Semantic → Semantic
  | [.string name, _, .keySchema ks, .projection projection, .optionalBilling billing,
      .optionalWarm warm] => .gsi ⟨name, ks, projection, billing, warm⟩
  | _ => .other

def asGsi : Semantic → Option Gsi
  | .gsi gsi => some gsi
  | _ => none

def asGsis : Semantic → Option (List Gsi)
  | .gsis list => some list
  | _ => none

def lsiAction : List Semantic → Semantic
  | [.string name, _, .keySchema ks, .projection projection] => .lsi ⟨name, ks, projection⟩
  | _ => .other

def asLsi : Semantic → Option Lsi
  | .lsi lsi => some lsi
  | _ => none

def asLsis : Semantic → Option (List Lsi)
  | .lsis list => some list
  | _ => none

def distanceAction : List Semantic → Semantic
  | [.token t] =>
      match t.kind with
      | .kind .kCosine => .distance .cosine
      | .kind .kEuclidean => .distance .euclidean
      | .kind .kDotProduct => .distance .dotProduct
      | _ => .other
  | _ => .other

def searchElementAction : List Semantic → Semantic
  | [.string attr, .token role] =>
      .searchElement ⟨attr, if role.kind = .kind .kHash then .hash else .inlineFilter⟩
  | _ => .other

def asSearchElement : Semantic → Option SearchSchemaElem
  | .searchElement element => some element
  | _ => none

def asSearchSchema : Semantic → Option (List SearchSchemaElem)
  | .searchSchema list => some list
  | _ => none

def searchSchemaAction : List Semantic → Semantic
  | [] => .searchSchema []
  | [_, _, _, .searchSchema list, _] => .searchSchema list
  | _ => .other

def vectorIndexAction : List Semantic → Semantic
  | [.string name, _, .string attr, _, .token n, _, .distance distance, .searchSchema search,
      .projection projection] =>
      .vectorIndex ⟨name, attr, parseLl n.lexeme, distance, search, projection⟩
  | _ => .other

def asVectorIndex : Semantic → Option VectorIndexDef
  | .vectorIndex index => some index
  | _ => none

def asVectorIndexes : Semantic → Option (List VectorIndexDef)
  | .vectorIndexes list => some list
  | _ => none

/-! ### Table settings -/

def streamViewTypeAction : List Semantic → Semantic
  | [.token t, _] =>
      match t.kind with
      | .kind .kKeys => .streamViewType .keysOnly
      | .kind .kNew => .streamViewType .newImage
      | .kind .kOld => .streamViewType .oldImage
      | .kind .kBoth => .streamViewType .newAndOldImages
      | _ => .other
  | _ => .other

def streamAction : List Semantic → Semantic
  | [_, _, .streamViewType type, _] => .stream ⟨true, type⟩
  | [_, _] => .stream ⟨false, .keysOnly⟩
  | _ => .other

def asStream : Semantic → Option StreamSpec
  | .stream spec => some spec
  | _ => none

def sseAction : List Semantic → Semantic
  | [_, _] => .sse ⟨false, none, none⟩
  | [_, _, _, .string keyId, .token type, _] =>
      .sse ⟨true, some keyId, some (if type.kind = .kind .kKms then .kms else .aes256)⟩
  | _ => .other

def asSse : Semantic → Option SseSpec
  | .sse spec => some spec
  | _ => none

def tableClassAction : List Semantic → Semantic
  | [_, _, _] => .tableClass .standard
  | [_, _, _, _, _] => .tableClass .standardInfrequentAccess
  | _ => .other

def optionalTableClassAction : List Semantic → Semantic
  | [.tableClass tableClass] => .tableClass tableClass
  | [] => .tableClass .standard
  | _ => .other

def deletionProtectionAction : List Semantic → Semantic
  | [_, _, .token t] => .flag (t.kind = .kind .kEnabled)
  | _ => .other

def optionalDeletionProtectionAction : List Semantic → Semantic
  | [.flag on] => .flag on
  | [] => .flag false
  | _ => .other

def tagAction : List Semantic → Semantic
  | [.string key, _, .string value] => .tag ⟨key, value⟩
  | _ => .other

def asTag : Semantic → Option Tag
  | .tag tag => some tag
  | _ => none

def asTags : Semantic → Option (List Tag)
  | .tags list => some list
  | _ => none

def tableTagsAction : List Semantic → Semantic
  | [_, _, .tags list, _] => .tags list
  | _ => .other

def optionalTagsAction : List Semantic → Semantic
  | [.tags list] => .tags list
  | [] => .tags []
  | _ => .other

def createTableAction : List Semantic → Semantic
  | [_, _, .flag ifNotExists, .flag nowait, .string name, _, .attributes attributes, _,
      .keySchema ks, .optionalBilling billing, .optionalWarm warm, .gsis gsis, .lsis lsis,
      .vectorIndexes vectorIndexes, .optionalStream stream, .optionalSse sse,
      .tableClass tableClass, .flag deletionProtection, .tags tags] =>
      .command <| .explainable <| .createTable
        { tableName := name
          ifNotExists := ifNotExists
          nowait := nowait
          attributeDefinitions := attributes
          keySchema := ks
          billing := billing
          warm := warm
          gsis := gsis
          lsis := lsis
          vectorIndexes := vectorIndexes
          stream := stream
          sse := sse
          tableClass := tableClass
          deletionProtection := deletionProtection
          tags := tags }
  | _ => .other

/-! ### Changes to a table -/

def overrideAction : List Semantic → Semantic
  | [_, .token n, _, _] => .override ⟨parseLl n.lexeme⟩
  | _ => .other

def asOverride : Semantic → Option ProvisionedThroughputOverride
  | .override units => some units
  | _ => none

def replicaGsiAction : List Semantic → Semantic
  | [.string index, .override override] => .replicaGsi ⟨index, override⟩
  | _ => .other

def asReplicaGsi : Semantic → Option ReplicaGsi
  | .replicaGsi gsi => some gsi
  | _ => none

def asReplicaGsis : Semantic → Option (List ReplicaGsi)
  | .replicaGsis list => some list
  | _ => none

def gsiCreateAction : List Semantic → Semantic
  | [.string name, _, .keySchema ks, .projection projection, .optionalBilling billing,
      .optionalWarm warm] =>
      .gsiUpdate
        { action := .create
          indexName := name
          keySchema := some ks
          projection := some projection
          billing := billing
          warm := warm }
  | _ => .other

def gsiDropAction : List Semantic → Semantic
  | [.string name] => .gsiUpdate { action := .drop, indexName := name }
  | _ => .other

def gsiUpdateElementAction : List Semantic → Semantic
  | [.string name, _, .billing billing] =>
      .gsiUpdate { action := .update, indexName := name, billing := some billing }
  | [.string name, _, .warm warm] =>
      .gsiUpdate { action := .update, indexName := name, warm := some warm }
  | _ => .other

def asGsiUpdate : Semantic → Option GsiUpdate
  | .gsiUpdate update => some update
  | _ => none

def asGsiUpdates : Semantic → Option (List GsiUpdate)
  | .gsiUpdates list => some list
  | _ => none

def alter (cmd : AlterTableCmd) : Semantic := .command (.explainable (.alterTable cmd))

def alterReplica (table : String) (replica : ReplicaUpdate) : Semantic :=
  .command (.explainable (.alterReplica ⟨table, replica⟩))

/-- `SET TTL DISABLED` and the two forms of `SET PITR`. -/
def alterSwitch (table : String) (setting state : SymbolType) : Semantic :=
  match setting.kind with
  | .kind .kTtl => .command (.explainable (.alterTtl { table := table }))
  | _ => .command (.explainable (.alterPitr ⟨table, state.kind = .kind .kEnabled⟩))

/-- The forms with one value behind the table. -/
def alterClause (table : String) : Semantic → Semantic
  | .warm warm => alter { table := table, warm := some warm }
  | .sse sse => alter { table := table, sse := some sse }
  | .tableClass tableClass => alter { table := table, tableClass := some tableClass }
  | .stream stream => alter { table := table, stream := some stream }
  | .flag on => alter { table := table, deletionProtection := some on }
  | _ => .other

/-- The forms with two. -/
def alterPair (table : String) : Semantic → Semantic → Semantic
  | .billing billing, .optionalWarm warm =>
      alter { table := table, billing := some billing, warm := warm }
  | .vsiKeyword, .vectorIndex index =>
      alter { table := table, vectorIndexUpdates := [{ create := some index }] }
  | .vsiKeyword, .string index =>
      alter { table := table, vectorIndexUpdates := [{ drop := some index }] }
  | .token setting, .token state => alterSwitch table setting state
  | .token _, .string region => alterReplica table { action := .drop, region := region }
  | _, .gsiUpdate update => alter { table := table, gsiUpdates := [update] }
  | _, _ => .other

/-- The forms with four, of which the second says nothing. -/
def alterParts (table : String) : Semantic → Semantic → Semantic → Semantic
  | _, .vsiKeyword, .vectorIndex index =>
      alter { table := table, vectorIndexUpdates := [{ create := some index }] }
  | _, .gsiUpdates updates, _ => alter { table := table, gsiUpdates := updates }
  | .token _, .string attr, _ => .command (.explainable (.alterTtl ⟨table, true, attr⟩))
  | _, _, _ => .other

def alterTableAction : List Semantic → Semantic
  | [_, _, .string table, _, clause] => alterClause table clause
  | [_, _, .string table, _, first, second] => alterPair table first second
  | [_, _, .string table, _, first, _, third, fourth] => alterParts table first third fourth
  | [_, _, .string table, _, .attributes attributes, _, _, _, .gsiUpdate update] =>
      alter { table := table, attributeDefinitions := attributes, gsiUpdates := [update] }
  | [_, _, .string table, _, .attributes attributes, _, _, .vsiKeyword, .vectorIndex index] =>
      alter
        { table := table
          attributeDefinitions := attributes
          vectorIndexUpdates := [{ create := some index }] }
  | [_, _, .string table, .token verb, _, .string region, .tableClass tableClass,
      .optionalOverride override, .replicaGsis gsis] =>
      alterReplica table
        { action := if verb.kind = .kind .kAdd then .add else .update
          region := region
          tableClass := some tableClass
          throughputOverride := override
          replicaGsis := gsis }
  | [_, _, .string table, _, .billing billing, .optionalWarm warm, _, _, _, .gsiUpdates updates,
      _] =>
      -- on demand the updates of the indexes are dropped
      match billing.mode with
      | .provisioned =>
          alter { table := table, billing := some billing, warm := warm, gsiUpdates := updates }
      | .payPerRequest =>
          alter
            { table := table
              billing := some billing
              warm := warm
              ignoredGsiOnDemand := true }
  | _ => .other

/-! ### Backups -/

def createBackupAction : List Semantic → Semantic
  | [_, _, .string table, _, .string name] =>
      .command (.explainable (.createBackup ⟨table, name⟩))
  | _ => .other

def dropBackupAction : List Semantic → Semantic
  | [_, _, .string arn] => .command (.explainable (.dropBackup ⟨arn⟩))
  | _ => .other

def describeBackupAction : List Semantic → Semantic
  | [_, _, .string arn] => .command (.explainable (.describeBackup ⟨arn⟩))
  | _ => .other

def restoreAction : List Semantic → Semantic
  | [_, _, .string target, _, _, .string source] =>
      .command (.explainable (.restore { target := target, source := source }))
  | [_, _, .string target, _, .string source, _, _, .token timestamp] =>
      .command (.explainable (.restore ⟨.toPitr, target, source, unquote timestamp.lexeme⟩))
  | _ => .other

/-! ### Values -/

/-- A value literal: those of `lee_rhs`, of which `insert_value` is a part. -/
def valueAction : List Semantic → Semantic
  | [.token t] =>
      match t.kind with
      | .kind .tWholeNumber | .kind .tFloatingPointNumber => .value (.N t.lexeme)
      | .kind .tDquotedString => .value (.S (unquote t.lexeme))
      | .kind .kTrue => .value (.BOOL true)
      | .kind .kFalse => .value (.BOOL false)
      | .kind .kNull => .value .NUL
      | _ => .other
  | [_, .values list, _] => .value (.L list)
  | [_, .entries map, _] => .value (.M map)
  | [.token t, _] => if t.kind = .character '[' then .value (.L []) else .value (.M [])
  | _ => .other

def asValue : Semantic → Option Value
  | .value v => some v
  | _ => none

def asValues : Semantic → Option (List Value)
  | .values list => some list
  | _ => none

def entriesAction : List Semantic → Semantic
  | [.string key, _, .value v] => .entries [(key, v)]
  | [.entries map, _, .string key, _, .value v] => .entries (map ++ [(key, v)])
  | _ => .other

def rowsAction : List Semantic → Semantic
  | [_, .values row, _] => .rows [row]
  | [.rows rows, _, _, .values row, _] => .rows (rows ++ [row])
  | _ => .other

/-! ### Clauses of statements -/

def rateLimitAction : List Semantic → Semantic
  | [_, _, _, .token m, .token unit, _, .token n, _, _] =>
      if unit.kind = .kind .kRcu then .rateLimit ⟨parseDouble m.lexeme, parseDouble n.lexeme⟩
      else .rateLimit ⟨parseDouble n.lexeme, parseDouble m.lexeme⟩
  | [_, _, _, .token m, .token unit, _] =>
      if unit.kind = .kind .kRcu then .rateLimit ⟨parseDouble m.lexeme, 0⟩
      else .rateLimit ⟨0, parseDouble m.lexeme⟩
  | _ => .other

def asRateLimit : Semantic → Option RateLimit
  | .rateLimit limit => some limit
  | _ => none

def returnValueAction : List Semantic → Semantic
  | [] => .returnValue .none
  | [_, _, .token scope, .token age] =>
      match scope.kind, age.kind with
      | .kind .kAll, .kind .kOld => .returnValue .allOld
      | .kind .kAll, _ => .returnValue .allNew
      | _, .kind .kOld => .returnValue .updatedOld
      | _, _ => .returnValue .updatedNew
  | _ => .other

def tableReferenceAction : List Semantic → Semantic
  | [.string table, _, .string index] => .tableReference ⟨table, some index⟩
  | [.string table] => .tableReference ⟨table, none⟩
  | _ => .other

def searchAction : List Semantic → Semantic
  | [] => .search none none
  | [_, .token topk, _, .value vector] =>
      .search (some vector) (some (intCast (parseLl topk.lexeme)))
  | _ => .other

def projectionListAction : List Semantic → Semantic
  | [.token _] => .names []
  | [.names list] => .names list
  | _ => .other

def consumedCapacityAction : List Semantic → Semantic
  | [] => .consumedCapacity .none
  | [_, _, _, .token scope] =>
      .consumedCapacity (if scope.kind = .kind .kIndexes then .indexes else .total)
  | _ => .other

/-! ### Conditions -/

/-- A path is carried as its text. -/
def pathAction : List Semantic → Semantic
  | [.string s] => .string s
  | [.string path, _, .token n, _] => .string (path ++ "[" ++ n.lexeme ++ "]")
  | [.string path, _, .string s] => .string (path ++ "." ++ s)
  | _ => .other

def comparisonAction : List Semantic → Semantic
  | [.token t] =>
      match t.kind with
      | .kind .tEqual => .comparison (.op .equal)
      | .kind .tGreaterThan => .comparison (.op .greaterThan)
      | .kind .tGreaterThanOrEqual => .comparison (.op .greaterThanOrEqual)
      | .kind .tLessThan => .comparison (.op .lessThan)
      | .kind .tLessThanOrEqual => .comparison (.op .lessThanOrEqual)
      | .kind .tNotEqual =>
          .comparison (if t.lexeme = "!=" then .bangEqual else .op .notEqual)
      | _ => .other
  | _ => .other

/-- The functions of a path and a string. -/
def stringTest (function : SymbolType) (path operand : String) : Semantic :=
  match function.kind with
  | .kind .kBeginsWith => .condition (Element.build (.beginsWith path operand))
  | .kind .kContains => .condition (Element.build (.contains path operand))
  | _ => .other

def pathTest (function : SymbolType) (path : String) : Semantic :=
  match function.kind with
  | .kind .kAttributeExists => .condition (Element.build (.attributeExists path))
  | .kind .kAttributeNotExists => .condition (Element.build (.attributeNotExists path))
  | _ => .other

def elementAction : List Semantic → Semantic
  | [.string path, .comparison op, .value v] =>
      .condition (Element.build (.comparison path op v))
  | [.string path, .token _, .token _] => .condition (Element.build (.isNull path))
  | [.string path, .token _, .token _, .token _] => .condition (Element.build (.isNotNull path))
  | [.string path, _, .value lo, _, .value hi] =>
      .condition (Element.build (.between path lo hi))
  | [.string path, _, _, .values (first :: rest), _] =>
      .condition (Element.build (.isIn path first rest))
  | [.token function, _, .string path, _] => pathTest function path
  | [.token _, _, .string path, _, .attributeType type, _] =>
      .condition (Element.build (.attributeType path type))
  | [.token function, _, .string path, _, .string operand, _] =>
      stringTest function path operand
  | [.token _, _, .string path, _, .comparison op, .value v] =>
      .condition (Element.build (.size path op v))
  | _ => .other

def conditionAction : List Semantic → Semantic
  | [.condition e] => .condition e
  | [.token _, .condition e] => .condition e.negate
  | [.token _, .condition e, .token _] => .condition e.setParenGroup
  | [.condition l, .token op, .condition r] =>
      .condition (if op.kind = .kind .kAnd then LogicalExpression.makeAnd l r
        else LogicalExpression.makeOr l r)
  | _ => .other

def clauseOfAction : List Semantic → Semantic
  | [_, .condition e] => .clause ⟨e⟩
  | _ => .other

def asClause : Semantic → Option Where
  | .clause w => some w
  | _ => none

/-! ### Reading and writing -/

def insertAction : List Semantic → Semantic
  | [_, _, .string table, _, .names columns, _, _, .rows rows, .optionalRateLimit limit] =>
      .command <| .explainable <| .insert
        { tableName := table
          columns := columns
          rows := rows
          insert := true
          ratelimit := limit.isSome
          returnValue := .none }
  | _ => .other

def replaceAction : List Semantic → Semantic
  | [_, _, .string table, _, .names columns, _, _, .rows rows, .optionalRateLimit limit,
      .returnValue value] =>
      .command <| .explainable <| .insert
        { tableName := table
          columns := columns
          rows := rows
          insert := false
          ratelimit := limit.isSome
          returnValue := value }
  | _ => .other

/-- What stands to the right of `=` and is no plain value. -/
def useLhsAction : List Semantic → Semantic
  | [.token t] => .setElement { lhs := "", rhsAttribute := t.lexeme }
  | [_, _, .string path, _, .value v, _] =>
      .setElement { lhs := "", ifNotExistsLhs := path, ifNotExistsValue := some v }
  | _ => .other

def setElementAction : List Semantic → Semantic
  | [.string path, _, .value v] => .setElement { lhs := path, rhsValue := some v }
  | [.string path, _, .setElement element, .token op, .value v] =>
      .setElement
        { element with
          lhs := path
          op := if op.kind = .character '+' then "+" else "-"
          rhsValue := some v }
  | [.string path, _, .setElement element] => .setElement { element with lhs := path }
  | _ => .other

def asSetElement : Semantic → Option UpdateSetElement
  | .setElement element => some element
  | _ => none

def asSetElements : Semantic → Option (List UpdateSetElement)
  | .setElements list => some list
  | _ => none

/-- UPDATE, and UPSERT where `upsert` is on. -/
def updateAction (upsert : Bool) : List Semantic → Semantic
  | [_, .tableReference reference, _, .setElements list, .optionalClause w,
      .optionalRateLimit limit, .returnValue value] =>
      .command <| .explainable <| .update
        { table := reference.table
          index := reference.index
          mutation := .set list
          condition := w
          upsert := upsert
          ratelimit := limit.isSome
          returnValue := value }
  | [_, .tableReference reference, _, .names list, .optionalClause w, .optionalRateLimit limit,
      .returnValue value] =>
      .command <| .explainable <| .update
        { table := reference.table
          index := reference.index
          mutation := .remove list
          condition := w
          upsert := upsert
          ratelimit := limit.isSome
          returnValue := value }
  | _ => .other

def deleteAction : List Semantic → Semantic
  | [_, _, .tableReference reference, .optionalClause w, .optionalRateLimit limit,
      .returnValue value] =>
      .command <| .explainable <| .delete
        { table := reference.table
          index := reference.index
          condition := w
          ratelimit := limit.isSome
          returnValue := value }
  | _ => .other

/-- A rate limit and RETURN CONSUMED CAPACITY exclude each other. -/
def selectAction : List Semantic → Semantic
  | [_, .flag consistent, .names projection, _, .tableReference reference, .optionalClause w,
      .search vector topk, .consumedCapacity rcc, .optionalRateLimit limit] =>
      if limit.isSome && rcc ≠ .none then .command .empty
      else
        .command <| .explainable <| .select
          { consistent := consistent
            projection := projection
            table := reference.table
            index := reference.index
            condition := w
            rcc := rcc
            ratelimit := limit.isSome
            searchVector := vector
            topk := topk }
  | _ => .other

def existsMode (mode : ExistsMode) : CommandNode → CommandNode
  | .explainable (.select cmd) => .explainable (.select { cmd with existsMode := mode })
  | node => node

def existsAction : List Semantic → Semantic
  | [_, .command node] => .command (existsMode .exists node)
  | [_, _, .command node] => .command (existsMode .notExists node)
  | _ => .other

/-! ### Transactions -/

/-- The two lists of commands inside a transaction, each with its `;`. -/
def transactItemsAction (access : TransactAccess) : List Semantic → Semantic
  | [.command node, _] => .transact { access := access, items := [node.transactItem] }
  | [.transact cmd, .command node, _] =>
      .transact { cmd with items := cmd.items ++ [node.transactItem] }
  | _ => .other

def transactAction : List Semantic → Semantic
  | [_, _, .transact cmd, .token terminator] =>
      .command <| .explainable <| .transact
        { cmd with rollback := terminator.kind = .kind .kRollback }
  | [_, _, _] => .command (.explainable (.transact { access := .read, rollback := true }))
  | _ => .other

/-! ### The other commands -/

/-- The keywords after HELP. -/
def helpTopic : List Terminal → Option HelpTopic
  | [] => some .general
  | [.kind .kExplain] => some .explain
  | [.kind .kBegin] => some .begin
  | [.kind .kCommit] => some .commit
  | [.kind .kRollback] => some .rollback
  | [.kind .kConnect] => some .connect
  | [.kind .kDrop] => some .drop
  | [.kind .kDrop, .kind .kTable] => some .dropTable
  | [.kind .kDrop, .kind .kBackup] => some .dropBackup
  | [.kind .kDescribe] => some .describe
  | [.kind .kDescribe, .kind .kBackup] => some .describeBackup
  | [.kind .kShow] => some .show
  | [.kind .kShow, .kind .kTables] => some .showTables
  | [.kind .kShow, .kind .kLimits] => some .showLimits
  | [.kind .kShow, .kind .kBackups] => some .showBackups
  | [.kind .kShow, .kind .kVersion] => some .showVersion
  | [.kind .kShow, .kind .kCreate, .kind .kTable] => some .showCreateTable
  | [.kind .kCreate] => some .create
  | [.kind .kCreate, .kind .kTable] => some .createTable
  | [.kind .kAlter, .kind .kTable] => some .alterTable
  | [.kind .kBackup] => some .backup
  | [.kind .kRestore] => some .restore
  | [.kind .kSelect] => some .select
  | [.kind .kInsert] => some .insert
  | [.kind .kReplace] => some .replace
  | [.kind .kUpdate] => some .update
  | [.kind .kUpsert] => some .upsert
  | [.kind .kDelete] => some .delete
  | _ => none

def asToken : Semantic → Option SymbolType
  | .token t => some t
  | _ => none

def helpAction (values : List Semantic) : Semantic :=
  ((helpTopic ((values.drop 1).filterMap fun v => (asToken v).map SymbolType.kind)).map
    fun topic => .command (.help topic)).getD .other

def connectAction : List Semantic → Semantic
  | [_, .string region, .string endpoint] => .command (.connect ⟨region, endpoint⟩)
  | _ => .other

/-- A clause that has one string behind its keywords, or is empty. -/
def stringClauseAction : List Semantic → Semantic
  | [] => .string ""
  | [.string s] | [_, .string s] | [_, _, .string s] => .string s
  | _ => .other

def dropTableAction : List Semantic → Semantic
  | [_, _, .flag ifExists, .flag nowait, .string table] =>
      .command (.explainable (.dropTable ⟨table, ifExists, nowait⟩))
  | _ => .other

def describeAction : List Semantic → Semantic
  | [_, .string table] => .command (.explainable (.describe ⟨table⟩))
  | _ => .other

def showTablesAction : List Semantic → Semantic
  | [_, _, .flag brief, .string like] => .command (.showTables ⟨brief, like⟩)
  | _ => .other

def showBackupsAction : List Semantic → Semantic
  | [_, .string backupType, _, .string table] => .command (.showBackups ⟨backupType, table⟩)
  | _ => .other

def showCreateTableAction : List Semantic → Semantic
  | [_, _, _, .flag ifNotExists, .flag nowait, .string table] =>
      .command (.showCreateTable ⟨ifNotExists, nowait, table⟩)
  | _ => .other

/-- A value that is passed on as it is. -/
def passAction : List Semantic → Semantic
  | [value] => value
  | _ => .other

def inputAction : List Semantic → Semantic
  | [] => .statement none
  | [.token _] => .statement none
  | [.command node, .token _] | [.command node] => .statement (some ⟨node, false⟩)
  | [.token _, .command node, .token _] | [.token _, .command node] =>
      .statement (some ⟨node, true⟩)
  | _ => .other

end RuleAction

open RuleAction

def ruleAction : Nonterminal → List Semantic → Semantic
  | .input => inputAction
  | .command | .explainable | .controlCommand | .ddlCommand | .dmlCommand | .getCommand
  | .writeCommand | .showCommand => passAction
  | .quitCommand => fun _ => .command .quit
  | .showVersionCommand => fun _ => .command .showVersion
  | .helpCommand => helpAction
  | .connectCommand => connectAction
  | .connectEndpoint | .optionalBackupType | .optionalTableName | .likeClause =>
      stringClauseAction
  | .dropTableCommand => dropTableAction
  | .describeCommand => describeAction
  | .createBackupCommand => createBackupAction
  | .dropBackupCommand => dropBackupAction
  | .describeBackupCommand => describeBackupAction
  | .restoreCommand => restoreAction
  | .showBackupsCommand => showBackupsAction
  | .showLimitsCommand => fun _ => .command .showLimits
  | .showCreateTableCommand => showCreateTableAction
  | .showTablesCommand => showTablesAction
  | .createTableCommand => createTableAction
  | .alterTableCommand => alterTableAction
  | .alterTableGsiCreate => gsiCreateAction
  | .alterTableGsiDrop => gsiDropAction
  | .alterTableGsiUpdateElement => gsiUpdateElementAction
  | .alterTableGsiUpdate => listAction asGsiUpdate asGsiUpdates .gsiUpdates
  | .provisionedThroughputOverride => overrideAction
  | .optionalProvisionedThroughputOverride => optionalAction asOverride .optionalOverride
  | .optionalReplicaGsiSpecification => clauseAction asReplicaGsis .replicaGsis
  | .replicaGsiSpecificationList => listAction asReplicaGsi asReplicaGsis .replicaGsis
  | .replicaGsiSpecificationListEntry => replicaGsiAction
  | .attributeNameTypeList => listAction asAttribute asAttributes .attributes
  | .attributeNameType => attributeAction
  | .attributeType => attributeTypeAction
  | .primaryKey => primaryKeyAction
  | .keySchema => keySchemaAction
  | .keyRoleList => keyRoleListAction
  | .keyRole => keyRoleAction
  | .keyAttrGroup => keyAttrGroupAction
  | .keyAttrNameList | .indexProjectionList | .removeList | .insertColumnList
  | .selectAttributeList => namesAction
  | .billingModeAndThroughput => billingAction
  | .optionalBillingModeAndThroughput => optionalAction asBilling .optionalBilling
  | .warmThroughput => warmAction
  | .optionalWarmThroughput => optionalAction asWarm .optionalWarm
  | .gsiList => clauseAction asGsis .gsis
  | .gsiSpecification => listAction asGsi asGsis .gsis
  | .gsi => gsiAction
  | .lsiList => clauseAction asLsis .lsis
  | .lsiSpecification => listAction asLsi asLsis .lsis
  | .lsi => lsiAction
  | .vsiKeyword => fun _ => .vsiKeyword
  | .vectorIndexList => clauseAction asVectorIndexes .vectorIndexes
  | .vectorIndexSpecification => listAction asVectorIndex asVectorIndexes .vectorIndexes
  | .vectorIndex => vectorIndexAction
  | .vectorDistanceFunction => distanceAction
  | .optionalVectorSearchSchema => searchSchemaAction
  | .vectorSearchSchemaList => listAction asSearchElement asSearchSchema .searchSchema
  | .vectorSearchSchemaElement => searchElementAction
  | .indexProjection => projectionAction
  | .streamViewType => streamViewTypeAction
  | .streamSpecification => streamAction
  | .optionalStreamSpecification => optionalAction asStream .optionalStream
  | .sseSpecification => sseAction
  | .optionalSseSpecification => optionalAction asSse .optionalSse
  | .tableClass => tableClassAction
  | .optionalTableClass => optionalTableClassAction
  | .deletionProtection => deletionProtectionAction
  | .optionalDeletionProtection => optionalDeletionProtectionAction
  | .tableTags => tableTagsAction
  | .optionalTableTags => optionalTagsAction
  | .tableTagsList => listAction asTag asTags .tags
  | .tableTag => tagAction
  | .insertCommand => insertAction
  | .replaceCommand => replaceAction
  | .updateCommand => updateAction false
  | .upsertCommand => updateAction true
  | .deleteCommand => deleteAction
  | .transactCommand => transactAction
  | .transactGetCommand => transactItemsAction .read
  | .transactWriteCommand => transactItemsAction .write
  | .existsCommand => existsAction
  | .setList => listAction asSetElement asSetElements .setElements
  | .setElement => setElementAction
  | .useLhs => useLhsAction
  | .tableName | .insertColumn | .selectAttribute | .regionName => passAction
  | .valueList => rowsAction
  | .insertValues | .leeRhsList => listAction asValue asValues .values
  | .insertValue | .leeRhs => valueAction
  | .mapElementList => entriesAction
  | .ratelimit => rateLimitAction
  | .optionalRatelimit => optionalAction asRateLimit .optionalRateLimit
  | .optionalReturnValue => returnValueAction
  | .selectCommand => selectAction
  | .optionalVectorSearchClause => searchAction
  | .optionalConsistent | .ifExistsClause | .ifNotExistsClause | .nowaitClause | .briefClause =>
      flagAction
  | .selectProjection => projectionListAction
  | .tableOptionalIndexName => tableReferenceAction
  | .optionalWhereClause => optionalAction asClause .optionalClause
  | .whereClause => clauseOfAction
  | .logicalExpression => conditionAction
  | .logicalExpressionElement => elementAction
  | .leeLhs => pathAction
  | .comparisonOp => comparisonAction
  | .optionalReturnConsumedCapacity => consumedCapacityAction
  | .string => stringAction

def actions : LR.Actions SymbolType Nonterminal Semantic where
  token := .token
  rule := ruleAction

/-- The statement of a derivation of `input`; `none` is an empty one. -/
def statementOf (tree : ParseTree) : Option ParsedStatement :=
  match actions.value tree with
  | .statement statement => statement
  | _ => none

/-- The statements of a batch. -/
def statements (b : BatchState) : List (Option ParsedStatement) := b.statements.map statementOf

end DdbShell
