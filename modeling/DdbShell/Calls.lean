import DdbShell.Commands
import DdbShell.Lib.Program

/-!
The client seam: its requests, its calls with their answers, the outcomes a
statement emits, and the monad the executors are written in. An executor is a
program over client calls and emitted outcomes; it carries the session's alias
counter and stops at the first error.

A page loop has no bound of its own. Here it runs under a budget of pages, and
`cut` is the ending of a run that wants more pages than that.
-/

namespace DdbShell

/-! ### Requests -/

structure PutItemIn where
  tableName : String
  item : ValueMap
  conditionExpression : Option String := .none
  expressionAttributeNames : ExpressionAttributeNames := []
  expressionAttributeValues : ValueMap := []
  returnValues : ReturnValue := .none
  returnConsumedCapacity : ReturnConsumedCapacity := .none

structure TransactPut where
  tableName : String
  item : ValueMap
  conditionExpression : Option String := .none
  expressionAttributeNames : ExpressionAttributeNames := []
  expressionAttributeValues : ValueMap := []

inductive TransactWriteItem where
  | put (put : TransactPut)
  | update (update : TransactUpdate)
  | delete (delete : TransactDelete)
  | conditionCheck (check : TransactConditionCheck)

structure CreateTableIn where
  tableName : String
  attributeDefinitions : List AttributeDef
  keySchema : KeySchema
  billing : Option BillingModeAndThroughput
  warm : Option WarmThroughput
  gsis : List Gsi
  lsis : List Lsi
  vectorIndexes : List VectorIndexDef
  stream : Option StreamSpec
  sse : Option SseSpec
  tableClass : TableClass
  deletionProtection : Bool
  tags : List Tag
  deriving DecidableEq, Repr

structure UpdateTableIn where
  tableName : String
  billing : Option BillingModeAndThroughput := none
  warm : Option WarmThroughput := none
  sse : Option SseSpec := none
  stream : Option StreamSpec := none
  tableClass : Option TableClass := none
  deletionProtection : Option Bool := none
  attributeDefinitions : List AttributeDef := []
  gsiUpdates : List GsiUpdate := []
  vectorIndexUpdates : List VectorIndexUpdateDef := []
  replica : Option ReplicaUpdate := none
  deriving DecidableEq, Repr

structure UpdateTimeToLiveIn where
  tableName : String
  enabled : Bool
  attributeName : String
  deriving DecidableEq, Repr

structure UpdateContinuousBackupsIn where
  tableName : String
  enabled : Bool
  deriving DecidableEq, Repr

structure CreateBackupIn where
  tableName : String
  backupName : String
  deriving DecidableEq, Repr

structure RestoreFromBackupIn where
  targetTableName : String
  backupArn : String
  deriving DecidableEq, Repr

structure RestoreToPitrIn where
  sourceTableName : String
  targetTableName : String
  restoreDatetime : String
  deriving DecidableEq, Repr

/-- A request to serialize without executing it. -/
inductive ExplainRequest where
  | getItem (request : GetItemIn)
  | query (request : QueryIn)
  | scan (request : ScanIn)
  | searchVectors (request : SearchVectorsIn)
  | putItem (request : PutItemIn)
  | updateItem (request : UpdateItemIn)
  | deleteItem (request : DeleteItemIn)
  | transactGetItems (items : List TransactGet)
  | transactWriteItems (items : List TransactWriteItem)
  | createTable (request : CreateTableIn)
  | updateTable (request : UpdateTableIn)
  | updateTimeToLive (request : UpdateTimeToLiveIn)
  | updateContinuousBackups (request : UpdateContinuousBackupsIn)
  | deleteTable (table : String)
  | describeTable (table : String)
  | describeTimeToLive (table : String)
  | describeContinuousBackups (table : String)
  | describeTableReplicaAutoScaling (table : String)
  | createBackup (request : CreateBackupIn)
  | deleteBackup (backupArn : String)
  | describeBackup (backupArn : String)
  | restoreFromBackup (request : RestoreFromBackupIn)
  | restoreToPitr (request : RestoreToPitrIn)

/-! ### Calls and answers -/

structure ItemRow where
  attributes : ValueMap := []
  deriving DecidableEq, Repr

/-- A `double`, added exactly. -/
abbrev Double := Rat

structure ConsumedCapacity where
  tableName : Option String := .none
  capacityUnits : Option Double := .none
  readCapacityUnits : Option Double := .none
  writeCapacityUnits : Option Double := .none
  deriving DecidableEq, Repr

structure GetItemOut where
  item : Option ItemRow := .none
  consumedCapacity : Option ConsumedCapacity := .none

/-- A page of a Query or a Scan. -/
structure PageOut where
  items : List ItemRow := []
  lastEvaluatedKey : Option ValueMap := .none
  consumedCapacity : Option ConsumedCapacity := .none

/-- The answer to a successful PutItem, UpdateItem or DeleteItem. -/
structure WriteOut where
  attributes : Option ItemRow := .none
  consumedCapacity : Option ConsumedCapacity := .none

structure VectorConsumedCapacity where
  vectorSearchRequestBytes : Option Double := .none
  vectorWriteRequestBytes : Option Double := .none
  deriving Repr

structure VectorSearchRow where
  item : ItemRow
  score : Double

structure SearchVectorsOut where
  results : List VectorSearchRow := []
  vectorCapacity : Option VectorConsumedCapacity := .none

structure TimeToLiveOut where
  status : String
  attributeName : String

structure BackupKeySchemaElement where
  keyType : String
  attributeName : String

structure DescribeBackupOut where
  sourceTableName : String
  sourceTableId : String
  sourceTableArn : String
  tableSizeBytes : Int
  itemCount : Int
  keySchema : List BackupKeySchemaElement
  tableCreationDatetime : String
  billingMode : Option String
  provisioned : Option (Int × Int)
  backupName : String
  backupArn : String
  backupSizeBytes : Int
  backupStatus : String
  backupType : String
  backupCreationDatetime : String
  backupExpiryDatetime : String

structure ListBackupsIn where
  tableName : Option String := .none
  backupType : Option String := .none
  limit : Int := 100
  exclusiveStartBackupArn : Option String := .none
  deriving DecidableEq, Repr

structure BackupSummaryRow where
  tableName : String
  backupName : String
  backupStatus : String
  backupArn : String
  creationDatetime : String
  expiryDatetime : String

structure ListBackupsOut where
  summaries : List BackupSummaryRow := []
  lastEvaluatedBackupArn : Option String := .none

structure DescribeLimitsOut where
  accountMaxRcu : Int := 0
  accountMaxWcu : Int := 0
  tableMaxRcu : Int := 0
  tableMaxWcu : Int := 0

structure ContinuousBackupsOut where
  pitrStatus : String
  earliestRestorableDateTime : String
  latestRestorableDateTime : String

structure ReplicaAutoScalingDescription where
  regionName : String
  replicaStatus : String

inductive ClientCall where
  | connect (region endpoint : String)
  | getItem (request : GetItemIn)
  | query (request : QueryIn)
  | scan (request : ScanIn)
  | searchVectors (request : SearchVectorsIn)
  | putItem (request : PutItemIn)
  | updateItem (request : UpdateItemIn)
  | deleteItem (request : DeleteItemIn)
  | transactGetItems (items : List TransactGet)
  | transactWriteItems (items : List TransactWriteItem)
  | createTable (request : CreateTableIn)
  | updateTable (request : UpdateTableIn)
  | updateTimeToLive (request : UpdateTimeToLiveIn)
  | updateContinuousBackups (request : UpdateContinuousBackupsIn)
  | deleteTable (table : String)
  | describeTable (table : String)
  | describeTimeToLive (table : String)
  | describeContinuousBackups (table : String)
  | describeTableReplicaAutoScaling (table : String)
  | describeLimits
  | listTables
  | listBackups (request : ListBackupsIn)
  | createBackup (request : CreateBackupIn)
  | deleteBackup (backupArn : String)
  | describeBackup (backupArn : String)
  | restoreTableFromBackup (request : RestoreFromBackupIn)
  | restoreTableToPointInTime (request : RestoreToPitrIn)
  | waitForTableActive (table : String)
  | waitForTableGone (table : String)
  | explainRequest (request : ExplainRequest)

namespace ClientCall

def Out : ClientCall → Type
  | .getItem _ => GetItemOut
  | .query _ | .scan _ => PageOut
  | .searchVectors _ => SearchVectorsOut
  | .putItem _ | .updateItem _ | .deleteItem _ => WriteOut
  | .transactGetItems _ => List (Option ItemRow)
  | .describeTable _ => DescribeTableOut
  | .describeTimeToLive _ => TimeToLiveOut
  | .describeContinuousBackups _ => ContinuousBackupsOut
  | .describeTableReplicaAutoScaling _ => List ReplicaAutoScalingDescription
  | .describeLimits => DescribeLimitsOut
  | .listTables => List String
  | .listBackups _ => ListBackupsOut
  | .describeBackup _ => DescribeBackupOut
  | .explainRequest _ => String
  | .connect _ _ | .transactWriteItems _ | .createTable _ | .updateTable _
  | .updateTimeToLive _ | .updateContinuousBackups _ | .deleteTable _ | .createBackup _
  | .deleteBackup _ | .restoreTableFromBackup _ | .restoreTableToPointInTime _
  | .waitForTableActive _ | .waitForTableGone _ => Unit

/-- The operations that change something. -/
def mutating : ClientCall → Bool
  | .putItem _ | .updateItem _ | .deleteItem _ | .transactWriteItems _ | .createTable _
  | .deleteTable _ | .updateTable _ | .updateTimeToLive _ | .updateContinuousBackups _
  | .createBackup _ | .deleteBackup _ | .restoreTableFromBackup _
  | .restoreTableToPointInTime _ | .connect _ _ => true
  | .getItem _ | .query _ | .scan _ | .searchVectors _ | .transactGetItems _
  | .describeTable _ | .describeTimeToLive _ | .describeContinuousBackups _
  | .describeTableReplicaAutoScaling _ | .describeLimits | .listTables | .listBackups _
  | .describeBackup _ | .waitForTableActive _ | .waitForTableGone _ | .explainRequest _ => false

end ClientCall

/-! ### Outcomes -/

inductive ExplainFormat where
  | pretty
  | compact
  deriving DecidableEq, Repr

structure ExplainBlock where
  apiName : String
  body : String
  format : ExplainFormat := .pretty
  deriving DecidableEq, Repr

inductive WriteVerb where
  | update
  | upsert
  | del
  deriving DecidableEq, Repr

structure BulkWriteOutcome where
  verb : WriteVerb
  read : Nat := 0
  modified : Nat := 0
  ccf : Nat := 0
  consumedCapacity : Option ConsumedCapacity := .none
  returnedItems : List ItemRow := []

inductive ExecOutcome where
  | status (token : String) (diagnostics : List String)
  | report (lines : List String)
  | empty
  | select (items : List ItemRow) (consumedCapacity : Option ConsumedCapacity)
  | write (tokens : List String) (items : List (Option ItemRow))
  | explain (blocks : List ExplainBlock) (trailingStatus : Option String)
  | bulkWrite (outcome : BulkWriteOutcome)
  | transact (token : String) (diagnostics : List String)
  | transactRead (items : List ItemRow)
  | vectorSearch (rows : List VectorSearchRow) (capacity : Option VectorConsumedCapacity)
  | multi (parts : List ExecOutcome)

/-! ### Executors -/

inductive Effect where
  | client (call : ClientCall)
  | emit (outcome : ExecOutcome)

def Effect.Answer : Effect → Type
  | .client call => Except Error call.Out
  | .emit _ => Unit

abbrev Action := Program Effect Effect.Answer

inductive Ending (α : Type) where
  | ok (a : α)
  | error (e : Error)
  /-- the page budget ran out -/
  | cut

/-- The ending of a call whose error ends the statement. -/
def Ending.ofAnswer {α : Type} : Except Error α → Ending α
  | .ok a => .ok a
  | .error e => .error e

/-- An executor: from the alias counter to a program that ends with the
counter after it. -/
def Exec (α : Type) : Type := Nat → Action (Ending α × Nat)

namespace Exec

variable {α β : Type}

def bind (x : Exec α) (f : α → Exec β) : Exec β := fun counter => do
  let (ending, counter) ← x counter
  match ending with
  | .ok a => f a counter
  | .error e => pure (.error e, counter)
  | .cut => pure (.cut, counter)

instance : Monad Exec where
  pure a := fun counter => .done (.ok a, counter)
  bind := bind

def throw (e : Error) : Exec α := fun counter => .done (.error e, counter)

def cut : Exec α := fun counter => .done (.cut, counter)

/-- A call, with its error as an answer. -/
def attempt (call : ClientCall) : Exec (Except Error call.Out) := fun counter =>
  .call (.client call) fun answer => .done (.ok answer, counter)

/-- A call whose error ends the statement. -/
def call (call : ClientCall) : Exec call.Out := do
  match ← attempt call with
  | .ok out => pure out
  | .error e => throw e

def emit (outcome : ExecOutcome) : Exec Unit := fun counter =>
  .call (.emit outcome) fun _ => .done (.ok (), counter)

def ofExcept : Except Error α → Exec α
  | .ok a => pure a
  | .error e => throw e

/-- `next_prefix`: the prefix of the counter, which is then advanced. -/
def nextPrefix : Exec String := fun counter => .done (.ok (uniquePrefix counter), counter + 1)

theorem bind_assoc {γ : Type} (x : Exec α) (f : α → Exec β) (g : β → Exec γ) :
    (x >>= f >>= g) = x >>= fun a => f a >>= g := by
  funext counter
  show Program.bind (Program.bind (x counter) _) _ = Program.bind (x counter) _
  rw [← Program.bind_eq, ← Program.bind_eq, Program.bind_assoc]
  refine congrArg _ (funext fun result => ?_)
  obtain ⟨ending, counter⟩ := result
  cases ending <;> rfl

/-- A first part that calls nothing. -/
theorem bind_of_done {x : Exec α} {f : α → Exec β} {a : α} {counter counter' : Nat}
    (h : x counter = .done (.ok a, counter')) : (x >>= f) counter = f a counter' := by
  show Exec.bind x f counter = _
  unfold Exec.bind
  rw [h]
  rfl

/-! ### Whatever the answers are -/

/-- Every effect the executor can have satisfies `P`. -/
def Always (P : Effect → Prop) (x : Exec α) : Prop := ∀ counter, (x counter).Always P

variable {P : Effect → Prop}

theorem always_pure (a : α) : Always P (pure a) := fun _ => trivial

theorem always_throw (e : Error) : Always P (throw e : Exec α) := fun _ => trivial

theorem always_cut : Always P (cut : Exec α) := fun _ => trivial

theorem always_nextPrefix : Always P nextPrefix := fun _ => trivial

theorem Always.mono {Q : Effect → Prop} {x : Exec α} (hx : Always P x)
    (h : ∀ op, P op → Q op) : Always Q x :=
  fun counter => Program.Always.mono (hx counter) h

theorem Always.bind {x : Exec α} {f : α → Exec β} (hx : Always P x)
    (hf : ∀ a, Always P (f a)) : Always P (x >>= f) := by
  intro counter
  refine Program.Always.bind (hx counter) ?_
  rintro ⟨ending, counter⟩
  cases ending with
  | ok a => exact hf a counter
  | error e => trivial
  | cut => trivial

theorem Always.of_bind {x : Exec α} {f : α → Exec β} (h : Always P (x >>= f)) : Always P x :=
  fun counter => Program.Always.of_bind (h counter)

theorem always_attempt {c : ClientCall} (h : P (.client c)) : Always P (attempt c) :=
  fun _ => ⟨h, fun _ => trivial⟩

theorem always_ofExcept (x : Except Error α) : Always P (ofExcept x) := by
  cases x with
  | ok a => exact always_pure a
  | error e => exact always_throw e

theorem always_call {c : ClientCall} (h : P (.client c)) : Always P (call c) := by
  refine Always.bind (always_attempt h) ?_
  intro answer
  cases answer with
  | ok out => exact always_pure out
  | error e => exact always_throw e

theorem always_emit {outcome : ExecOutcome} (h : P (.emit outcome)) :
    Always P (emit outcome) := fun _ => ⟨h, fun _ => trivial⟩

/-! ### Finished runs -/

/-- A run of an executor from a counter, with its events. -/
def Runs (x : Exec α) (counter : Nat) (events : List (Program.Event Effect Effect.Answer))
    (result : Ending α × Nat) : Prop :=
  Program.Runs (x counter) events result

variable {counter : Nat} {events : List (Program.Event Effect Effect.Answer)}

theorem runs_pure {a : α} {result : Ending α × Nat} (h : Runs (pure a) counter events result) :
    events = [] ∧ result = (.ok a, counter) :=
  Program.runs_done h

theorem runs_throw {e : Error} {result : Ending α × Nat}
    (h : Runs (throw e : Exec α) counter events result) :
    events = [] ∧ result = (.error e, counter) :=
  Program.runs_done h

theorem runs_cut {result : Ending α × Nat} (h : Runs (cut : Exec α) counter events result) :
    events = [] ∧ result = (.cut, counter) :=
  Program.runs_done h

theorem runs_nextPrefix {result : Ending String × Nat}
    (h : Runs nextPrefix counter events result) :
    events = [] ∧ result = (.ok (uniquePrefix counter), counter + 1) :=
  Program.runs_done h

theorem runs_nextPrefix_bind {f : String → Exec β} {result : Ending β × Nat}
    (h : Runs (nextPrefix >>= f) counter events result) :
    Runs (f (uniquePrefix counter)) (counter + 1) events result := h

theorem runs_pure_bind {a : α} {f : α → Exec β} {result : Ending β × Nat}
    (h : Runs (pure a >>= f) counter events result) : Runs (f a) counter events result := h

theorem runs_attempt {c : ClientCall} {result : Ending (Except Error c.Out) × Nat}
    (h : Runs (attempt c) counter events result) :
    ∃ answer : Except Error c.Out,
      events = [⟨.client c, answer⟩] ∧ result = (.ok answer, counter) := by
  obtain ⟨answer, rest, rfl, hrest⟩ := Program.runs_call h
  obtain ⟨rfl, rfl⟩ := Program.runs_done hrest
  exact ⟨answer, rfl, rfl⟩

theorem runs_emit {outcome : ExecOutcome} {result : Ending Unit × Nat}
    (h : Runs (emit outcome) counter events result) :
    events = [⟨.emit outcome, ()⟩] ∧ result = (.ok (), counter) := by
  obtain ⟨answer, rest, rfl, hrest⟩ := Program.runs_call h
  obtain ⟨rfl, rfl⟩ := Program.runs_done hrest
  exact ⟨rfl, rfl⟩

/-- The three ways a sequence can run: both parts, or only the first with its
error or cut-off. -/
theorem runs_bind {x : Exec α} {f : α → Exec β} {result : Ending β × Nat}
    (h : Runs (x >>= f) counter events result) :
    (∃ before a middle after, events = before ++ after ∧
      Runs x counter before (.ok a, middle) ∧ Runs (f a) middle after result) ∨
    (∃ e middle, result = (.error e, middle) ∧ Runs x counter events (.error e, middle)) ∨
    (∃ middle, result = (.cut, middle) ∧ Runs x counter events (.cut, middle)) := by
  obtain ⟨before, ⟨ending, middle⟩, after, rfl, hx, hf⟩ := Program.runs_bind h
  cases ending with
  | ok a => exact .inl ⟨before, a, middle, after, rfl, hx, hf⟩
  | error e =>
      obtain ⟨rfl, rfl⟩ := Program.runs_done hf
      rw [List.append_nil]
      exact .inr (.inl ⟨e, middle, rfl, hx⟩)
  | cut =>
      obtain ⟨rfl, rfl⟩ := Program.runs_done hf
      rw [List.append_nil]
      exact .inr (.inr ⟨middle, rfl, hx⟩)

/-- Both parts, the first of which ends well. -/
theorem Runs.bind {x : Exec α} {f : α → Exec β} {a : α} {middle : Nat}
    {before after : List (Program.Event Effect Effect.Answer)} {result : Ending β × Nat}
    (hx : Runs x counter before (.ok a, middle)) (hf : Runs (f a) middle after result) :
    Runs (x >>= f) counter (before ++ after) result :=
  Program.Runs.bind hx hf

theorem runs_call {c : ClientCall} {result : Ending c.Out × Nat}
    (h : Runs (call c) counter events result) :
    ∃ answer : Except Error c.Out, events = [⟨.client c, answer⟩] ∧
      result = (.ofAnswer answer, counter) := by
  rcases runs_bind h with
    ⟨before, answer, middle, after, rfl, hx, hf⟩ | ⟨e, middle, rfl, hx⟩ | ⟨middle, rfl, hx⟩
  · obtain ⟨answer', rfl, hresult⟩ := runs_attempt hx
    obtain ⟨hanswer, rfl⟩ := Prod.mk.inj hresult
    cases hanswer
    cases answer with
    | ok out =>
        obtain ⟨rfl, rfl⟩ := runs_pure hf
        exact ⟨.ok out, rfl, rfl⟩
    | error e =>
        obtain ⟨rfl, rfl⟩ := runs_throw hf
        exact ⟨.error e, rfl, rfl⟩
  · obtain ⟨answer, rfl, hresult⟩ := runs_attempt hx
    cases (Prod.mk.inj hresult).1
  · obtain ⟨answer, rfl, hresult⟩ := runs_attempt hx
    cases (Prod.mk.inj hresult).1

/-! ### Against a client -/

section Client

variable {σ : Type} (reply : σ → (op : Effect) → op.Answer × σ)

/-- Play an executor from a counter against a client. -/
def play (x : Exec α) (counter : Nat) (s : σ) :
    List (Program.Event Effect Effect.Answer) × (Ending α × Nat) × σ :=
  (x counter).runWith reply s

theorem play_bind (x : Exec α) (f : α → Exec β) (counter : Nat) (s : σ) :
    play reply (x >>= f) counter s =
      match play reply x counter s with
      | (events, (.ok a, middle), s') =>
          (events ++ (play reply (f a) middle s').1, (play reply (f a) middle s').2)
      | (events, (.error e, middle), s') => (events, (.error e, middle), s')
      | (events, (.cut, middle), s') => (events, (.cut, middle), s') := by
  show (Exec.bind x f counter).runWith reply s = _
  unfold Exec.bind play
  rw [Program.runWith_bind]
  generalize (x counter).runWith reply s = played
  obtain ⟨events, ⟨ending, middle⟩, s'⟩ := played
  cases ending with
  | ok a => rfl
  | error e => simp
  | cut => simp

theorem play_attempt (c : ClientCall) (counter : Nat) (s : σ) :
    play reply (attempt c) counter s =
      ([⟨.client c, (reply s (.client c)).1⟩], (.ok (reply s (.client c)).1, counter),
        (reply s (.client c)).2) := rfl

theorem play_call (c : ClientCall) (counter : Nat) (s : σ) :
    play reply (call c) counter s =
      ([⟨.client c, (reply s (.client c)).1⟩], (.ofAnswer (reply s (.client c)).1, counter),
        (reply s (.client c)).2) := by
  rw [call, play_bind, play_attempt]
  dsimp only
  cases (reply s (.client c)).1 <;> rfl

theorem play_nextPrefix_bind (f : String → Exec β) (counter : Nat) (s : σ) :
    play reply (nextPrefix >>= f) counter s =
      play reply (f (uniquePrefix counter)) (counter + 1) s := rfl

end Client

end Exec

end DdbShell
