import DdbShell.Expressions.LogicalExpression

/-!
The SDK-free value types of a table definition, shared by the parsed commands
and the requests of the client.
-/

namespace DdbShell

structure AttributeDef where
  name : String
  type : ScalarType := .s
  deriving DecidableEq, Repr

/-- The attributes of a key in composite order. -/
structure KeySchema where
  hash : List String := []
  range : List String := []
  deriving DecidableEq, Repr

/-- Append the attributes of one parsed key role. -/
def KeySchema.addKeyRole (ks : KeySchema) (isHash : Bool) (attrs : List String) : KeySchema :=
  if isHash then { ks with hash := ks.hash ++ attrs } else { ks with range := ks.range ++ attrs }

inductive BillingMode where
  | payPerRequest
  | provisioned
  deriving DecidableEq, Repr

structure OnDemandThroughput where
  maxReadRequestUnits : Option Int := none
  maxWriteRequestUnits : Option Int := none
  deriving DecidableEq, Repr

structure BillingModeAndThroughput where
  mode : BillingMode := .payPerRequest
  rcu : Int := 0
  wcu : Int := 0
  od : OnDemandThroughput := {}
  deriving DecidableEq, Repr

structure WarmThroughput where
  readUnitsPerSecond : Int := 0
  writeUnitsPerSecond : Int := 0
  deriving DecidableEq, Repr

inductive ProjectionType where
  | all
  | keysOnly
  | include
  deriving DecidableEq, Repr

structure Projection where
  type : ProjectionType := .all
  nonKeyAttributes : List String := []
  deriving DecidableEq, Repr

structure Gsi where
  name : String
  keySchema : KeySchema
  projection : Projection
  billing : Option BillingModeAndThroughput := none
  warm : Option WarmThroughput := none
  deriving DecidableEq, Repr

inductive GsiUpdateAction where
  | create
  | update
  | drop
  deriving DecidableEq, Repr

structure GsiUpdate where
  action : GsiUpdateAction := .update
  indexName : String
  keySchema : Option KeySchema := none
  projection : Option Projection := none
  billing : Option BillingModeAndThroughput := none
  warm : Option WarmThroughput := none
  deriving DecidableEq, Repr

structure Lsi where
  name : String
  keySchema : KeySchema
  projection : Projection
  deriving DecidableEq, Repr

inductive VectorDistance where
  | cosine
  | euclidean
  | dotProduct
  deriving DecidableEq, Repr

inductive SearchSchemaKind where
  | hash
  | inlineFilter
  deriving DecidableEq, Repr

structure SearchSchemaElem where
  attr : String
  kind : SearchSchemaKind := .inlineFilter
  deriving DecidableEq, Repr

structure VectorIndexDef where
  indexName : String
  vectorAttr : String
  dimensions : Int := 0
  distance : VectorDistance := .cosine
  searchSchema : List SearchSchemaElem := []
  projection : Projection := {}
  deriving DecidableEq, Repr

structure VectorIndexUpdateDef where
  create : Option VectorIndexDef := none
  drop : Option String := none
  deriving DecidableEq, Repr

inductive StreamViewType where
  | keysOnly
  | newImage
  | oldImage
  | newAndOldImages
  deriving DecidableEq, Repr

structure StreamSpec where
  enabled : Bool := false
  viewType : StreamViewType := .keysOnly
  deriving DecidableEq, Repr

inductive SseType where
  | kms
  | aes256
  deriving DecidableEq, Repr

structure SseSpec where
  enabled : Bool := false
  kmsMasterKeyId : Option String := none
  sseType : Option SseType := none
  deriving DecidableEq, Repr

inductive TableClass where
  | standard
  | standardInfrequentAccess
  deriving DecidableEq, Repr

structure Tag where
  key : String
  value : String
  deriving DecidableEq, Repr

structure ProvisionedThroughputOverride where
  readCapacityUnits : Int := 0
  deriving DecidableEq, Repr

structure ReplicaGsi where
  indexName : String
  throughputOverride : ProvisionedThroughputOverride
  deriving DecidableEq, Repr

inductive ReplicaAction where
  | add
  | drop
  | update
  deriving DecidableEq, Repr

structure ReplicaUpdate where
  action : ReplicaAction := .add
  region : String
  tableClass : Option TableClass := none
  throughputOverride : Option ProvisionedThroughputOverride := none
  replicaGsis : List ReplicaGsi := []
  deriving DecidableEq, Repr

end DdbShell
