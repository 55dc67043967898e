import DdbShell.Calls
import DdbShell.Lib.Slots

/-!
The in-memory client. It stores the items of each table in slots addressed by
a string made of the key, reads a key condition, a projection and an update
expression word by word, and takes a condition for what it says about the
existence of the key. How `std::stod` orders two number strings is a parameter.
-/

namespace DdbShell

/-! ### Values -/

/-- What comparing the doubles of two number strings with `<` and `>` says, or
`none` where `std::stod` throws on one of them. A double is not less than
itself. -/
structure NumberOrder where
  compare : String → String → Option Ordering
  refl : ∀ s, compare s s = none ∨ compare s s = some .eq

/-- The string field of a value. -/
def Value.text : Value → String
  | .S s | .N s | .B s => s
  | _ => ""

/-- Type tag and payload. -/
def Value.key : Value → String
  | .S s => "S:" ++ s
  | .N s => "N:" ++ s
  | .B s => "B:" ++ s
  | .BOOL b => if b then "BOOL:1" else "BOOL:0"
  | .NUL => "NUL:"
  | .L _ | .M _ | .SS _ | .NS _ | .BS _ => "?:"

/-- Numbers compare as numbers, anything else as its string field. -/
def NumberOrder.compareValues (order : NumberOrder) (a b : Value) : Ordering :=
  match a, b with
  | .N s, .N t => (order.compare s t).getD (Ord.compare s t)
  | _, _ => Ord.compare a.text b.text

/-! ### Keys -/

def keySeparator : Char := Char.ofNat 0x1f

def keyString : ValueMap → String
  | [] => ""
  | (name, value) :: rest =>
      name ++ "=" ++ value.key ++ String.singleton keySeparator ++ keyString rest

namespace TableKeySchema

/-- Hash attributes first. -/
def attributes (schema : TableKeySchema) : List String := schema.hashKeys ++ schema.rangeKeys

end TableKeySchema

/-- The key attributes that the item has, in the order of the schema. -/
def extractKey (item : ItemRow) (schema : TableKeySchema) : ValueMap :=
  schema.attributes.filterMap fun attr => (item.attributes.lookup attr).map (attr, ·)

/-- The slot that a stored item belongs to. -/
def slotOf (schema : TableKeySchema) (item : ItemRow) : String :=
  keyString (extractKey item schema)

/-! ### Reading expressions -/

/-- The words between breaks. -/
def splitWords (breaks : List Char) (text : String) : List String :=
  ((text.toList.splitOnP fun c => breaks.contains c).filter (· ≠ [])).map String.ofList

/-- An unknown token loses its `#`. -/
def resolveName (names : ExpressionAttributeNames) (token : String) : String :=
  (names.lookup token).getD
    (match token.toList with
    | '#' :: rest => String.ofList rest
    | _ => token)

def resolveValue (values : ValueMap) (token : String) : Value := (values.lookup token).getD .NUL

structure KeyPredicate where
  attr : String
  op : String
  v1 : Value
  /-- for `between` -/
  v2 : Value := .NUL
  deriving DecidableEq, Repr

/-- The predicate that starts with this word, and how many words after it
belong to it. -/
def predicateAt (names : ExpressionAttributeNames) (values : ValueMap) (token : String) :
    List String → Option (KeyPredicate × Nat)
  | second :: third :: more =>
      if token = "begins_with" then
        some ({ attr := resolveName names second, op := "begins_with",
                v1 := resolveValue values third }, 2)
      else if second.toUpper = "BETWEEN" ∧ 2 ≤ more.length then
        -- the word between the bounds is AND
        some ({ attr := resolveName names token, op := "between",
                v1 := resolveValue values third,
                v2 := resolveValue values (more.getD 1 "") }, 4)
      else
        some ({ attr := resolveName names token, op := second,
                v1 := resolveValue values third }, 2)
  | _ => none

/-- The predicates of a key condition, from its words. The number counts the
words that are still to be passed over. -/
def readPredicates (names : ExpressionAttributeNames) (values : ValueMap) :
    Nat → List String → List KeyPredicate
  | _, [] => []
  | skip + 1, _ :: rest => readPredicates names values skip rest
  | 0, token :: rest =>
      if token.toUpper = "AND" then readPredicates names values 0 rest
      else
        match predicateAt names values token rest with
        | some (p, taken) => p :: readPredicates names values taken rest
        | none => readPredicates names values 0 rest

def parseKeyCondition (expr : String) (names : ExpressionAttributeNames) (values : ValueMap) :
    List KeyPredicate :=
  readPredicates names values 0 (splitWords [' ', '(', ')', ','] expr)

namespace KeyPredicate

def holds (order : NumberOrder) (p : KeyPredicate) (v : Value) : Bool :=
  if p.op = "=" then order.compareValues v p.v1 = .eq
  else if p.op = "<" then order.compareValues v p.v1 = .lt
  else if p.op = "<=" then order.compareValues v p.v1 ≠ .gt
  else if p.op = ">" then order.compareValues v p.v1 = .gt
  else if p.op = ">=" then order.compareValues v p.v1 ≠ .lt
  else if p.op = "begins_with" then p.v1.text.toList.isPrefixOf v.text.toList
  else if p.op = "between" then
    order.compareValues v p.v1 ≠ .lt && order.compareValues v p.v2 ≠ .gt
  else false

end KeyPredicate

/-- A missing attribute matches nothing. -/
def matchesAll (order : NumberOrder) (preds : List KeyPredicate) (item : ItemRow) : Bool :=
  preds.all fun p => (item.attributes.lookup p.attr).any (p.holds order)

/-- The projected attributes in the order of the item. -/
def projectItem (projection : Option String) (names : ExpressionAttributeNames)
    (item : ItemRow) : ItemRow :=
  match projection with
  | none => item
  | some text =>
      if text = "" then item
      else
        let wanted := (splitWords [' ', ','] text).map (resolveName names)
        { attributes := item.attributes.filter fun entry => wanted.contains entry.1 }

/-! ### Updates -/

def setAttr (attr : String) (v : Value) : ValueMap → ValueMap
  | [] => [(attr, v)]
  | entry :: rest => if entry.1 = attr then (attr, v) :: rest else entry :: setAttr attr v rest

def removeAttr (attr : String) : ValueMap → ValueMap
  | [] => []
  | entry :: rest => if entry.1 = attr then rest else entry :: removeAttr attr rest

inductive UpdateMode where
  | none
  | set
  | remove
  deriving DecidableEq, Repr

/-- What is assigned, where ` = ` and a value follow a name. -/
def assignedAt : List String → Option String
  | second :: third :: _ => if second = "=" then some third else none
  | _ => none

/-- Work through the words of an update expression. What is no keyword, no
plain assignment under SET and no name under REMOVE is passed over. The number
counts the words of an assignment that are still to be passed over. -/
def applyWords (names : ExpressionAttributeNames) (values : ValueMap) :
    UpdateMode → Nat → List String → ValueMap → ValueMap
  | _, _, [], item => item
  | mode, skip + 1, _ :: rest, item => applyWords names values mode skip rest item
  | mode, 0, token :: rest, item =>
      if token.toUpper = "SET" then applyWords names values .set 0 rest item
      else if token.toUpper = "REMOVE" then applyWords names values .remove 0 rest item
      else
        match mode with
        | .none => applyWords names values .none 0 rest item
        | .set =>
            match assignedAt rest with
            | some value =>
                applyWords names values .set 2 rest
                  (setAttr (resolveName names token) (resolveValue values value) item)
            | none => applyWords names values .set 0 rest item
        | .remove =>
            applyWords names values .remove 0 rest (removeAttr (resolveName names token) item)

def applyUpdate (expr : String) (names : ExpressionAttributeNames) (values : ValueMap)
    (item : ItemRow) : ItemRow :=
  { attributes := applyWords names values .none 0 (splitWords [' ', ','] expr) item.attributes }

/-! ### Conditions -/

/-- The text occurs in the other. -/
def occursIn (text : String) (condition : String) : Bool :=
  condition.toList.tails.any fun tail => text.toList.isPrefixOf tail

def conditionalCheckFailed : Error :=
  ⟨.conditionalCheckFailed, "The conditional request failed"⟩

def checkCondition (condition : Option String) (keyExists : Bool) : Except Error Unit :=
  match condition with
  | none => .ok ()
  | some c =>
      let wantsAbsent := occursIn "attribute_not_exists" c
      let wantsPresent := !wantsAbsent && occursIn "attribute_exists" c
      if wantsAbsent && keyExists then .error conditionalCheckFailed
      else if wantsPresent && !keyExists then .error conditionalCheckFailed
      else .ok ()

/-! ### Tables -/

structure MemoryTable extends Slots String ItemRow where
  name : String
  schema : TableKeySchema
  deriving DecidableEq, Repr

namespace MemoryTable

def putItem (t : MemoryTable) (key : String) (item : ItemRow) : MemoryTable :=
  { t with toSlots := t.toSlots.put key item }

def eraseItem (t : MemoryTable) (key : String) : MemoryTable :=
  { t with toSlots := t.toSlots.erase key }

end MemoryTable

/-- The tables by name. -/
abbrev MemoryClient := Std.TreeMap String MemoryTable

namespace MemoryClient

variable (order : NumberOrder)

def noSuchTable (name : String) : Error := ⟨.noSuchTable, "Table: " ++ name ++ " not found"⟩

def notImplemented (op : String) : Error :=
  ⟨.notImplemented, "MemoryClient does not implement " ++ op⟩

def getItem (m : MemoryClient) (request : GetItemIn) : Except Error GetItemOut :=
  match m[request.tableName]? with
  | none => .error (noSuchTable request.tableName)
  | some t => .ok { item := t.find (keyString request.key) }

def query (m : MemoryClient) (request : QueryIn) : Except Error PageOut :=
  match m[request.tableName]? with
  | none => .error (noSuchTable request.tableName)
  | some t =>
      let preds := parseKeyCondition request.keyConditionExpression
        request.expressionAttributeNames request.expressionAttributeValues
      .ok { items := (t.items.filter (matchesAll order preds)).map
              (projectItem request.projectionExpression request.expressionAttributeNames) }

/-- Filters are not evaluated. -/
def scan (m : MemoryClient) (request : ScanIn) : Except Error PageOut :=
  match m[request.tableName]? with
  | none => .error (noSuchTable request.tableName)
  | some t =>
      .ok { items := t.items.map
              (projectItem request.projectionExpression request.expressionAttributeNames) }

def putItem (m : MemoryClient) (request : PutItemIn) : Except Error WriteOut × MemoryClient :=
  match m[request.tableName]? with
  | none => (.error (noSuchTable request.tableName), m)
  | some t =>
      let item : ItemRow := { attributes := request.item }
      let key := slotOf t.schema item
      match checkCondition request.conditionExpression (t.find key).isSome with
      | .error e => (.error e, m)
      | .ok () =>
          (.ok { attributes := if request.returnValues = .allOld then t.find key else none },
            m.insert request.tableName (t.putItem key item))

/-- An update of no item starts from the key. -/
def updateItem (m : MemoryClient) (request : UpdateItemIn) : Except Error WriteOut × MemoryClient :=
  match m[request.tableName]? with
  | none => (.error (noSuchTable request.tableName), m)
  | some t =>
      let key := keyString request.key
      match checkCondition request.conditionExpression (t.find key).isSome with
      | .error e => (.error e, m)
      | .ok () =>
          let item := applyUpdate request.updateExpression request.expressionAttributeNames
            request.expressionAttributeValues ((t.find key).getD { attributes := request.key })
          (.ok {
              attributes :=
                if request.returnValues = .allNew ∨ request.returnValues = .updatedNew then
                  some item
                else none },
            m.insert request.tableName (t.putItem key item))

def deleteItem (m : MemoryClient) (request : DeleteItemIn) : Except Error WriteOut × MemoryClient :=
  match m[request.tableName]? with
  | none => (.error (noSuchTable request.tableName), m)
  | some t =>
      let key := keyString request.key
      match checkCondition request.conditionExpression (t.find key).isSome with
      | .error e => (.error e, m)
      | .ok () =>
          (.ok { attributes := if request.returnValues = .allOld then t.find key else none },
            m.insert request.tableName (t.eraseItem key))

def createTable (m : MemoryClient) (request : CreateTableIn) : Except Error Unit × MemoryClient :=
  match m[request.tableName]? with
  | some _ => (.error ⟨.tableAlreadyExists, "Table already exists: " ++ request.tableName⟩, m)
  | none =>
      (.ok (), m.insert request.tableName
        { name := request.tableName, schema := ⟨request.keySchema.hash, request.keySchema.range⟩ })

def deleteTable (m : MemoryClient) (table : String) : Except Error Unit × MemoryClient :=
  match m[table]? with
  | none => (.error (noSuchTable table), m)
  | some _ => (.ok (), m.erase table)

def describeTable (m : MemoryClient) (table : String) : Except Error DescribeTableOut :=
  match m[table]? with
  | none => .error (noSuchTable table)
  | some t => .ok { tableName := t.name, keySchema := t.schema }

/-- The names of the tables, in order. -/
def listTables (m : MemoryClient) : List String := m.keys

/-- Any call. The control plane beyond the life of a table is not modelled by
the client: its calls succeed with nothing to say or are refused. -/
def reply (m : MemoryClient) : (call : ClientCall) → Except Error call.Out × MemoryClient
  | .connect _ _ => (.ok (), m)
  | .getItem request => (m.getItem request, m)
  | .query request => (m.query order request, m)
  | .scan request => (m.scan request, m)
  | .searchVectors _ =>
      (.error ⟨.serviceError, "SearchVectors is not supported by this client"⟩, m)
  | .putItem request => m.putItem request
  | .updateItem request => m.updateItem request
  | .deleteItem request => m.deleteItem request
  | .transactGetItems _ => (.error (notImplemented "TransactGetItems"), m)
  | .transactWriteItems _ => (.error (notImplemented "TransactWriteItems"), m)
  | .createTable request => m.createTable request
  | .updateTable _ => (.ok (), m)
  | .updateTimeToLive _ => (.ok (), m)
  | .updateContinuousBackups _ => (.ok (), m)
  | .deleteTable table => m.deleteTable table
  | .describeTable table => (m.describeTable table, m)
  | .describeTimeToLive _ => (.ok ⟨"DISABLED", ""⟩, m)
  | .describeContinuousBackups _ => (.ok ⟨"DISABLED", "", ""⟩, m)
  | .describeTableReplicaAutoScaling _ => (.ok [], m)
  | .describeLimits => (.ok {}, m)
  | .listTables => (.ok m.listTables, m)
  | .listBackups _ => (.ok {}, m)
  | .createBackup _ => (.error (notImplemented "CreateBackup"), m)
  | .deleteBackup _ => (.error (notImplemented "DeleteBackup"), m)
  | .describeBackup _ => (.error (notImplemented "DescribeBackup"), m)
  | .restoreTableFromBackup _ => (.error (notImplemented "RestoreTableFromBackup"), m)
  | .restoreTableToPointInTime _ => (.error (notImplemented "RestoreTableToPointInTime"), m)
  | .waitForTableActive _ => (.ok (), m)
  | .waitForTableGone _ => (.ok (), m)
  | .explainRequest _ => (.error (notImplemented "explain_request"), m)

/-- The client after a sequence of calls. -/
def run (m : MemoryClient) (calls : List ClientCall) : MemoryClient :=
  calls.foldl (fun m call => (m.reply order call).2) m

end MemoryClient

end DdbShell
