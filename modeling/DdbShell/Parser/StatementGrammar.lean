import DdbShell.Lib.LR

/-!
The productions of the statement grammar, without their actions, and the
precedences that resolve its conflicts. The alternative `error SEMICOLON` of
`input` is not a production here: it only says where a failed statement ends.

No state of the automaton has two complete rules, and its shift-reduce choices
are the same with the lookahead sets as without them, so the item sets alone
determine it.
-/

namespace DdbShell

open LR (Sym Grammar)

/-- The declared tokens. Each valueless keyword has one kind whatever its
spelling; a `T_` token carries its lexeme. -/
inductive TokenKind where
  | semicolon | kAccess | kAdd | kAes256 | kAll | kAlter | kAnd | kAs | kAttributeExists
  | kAttributeNotExists | kAttributeType | kAttributeTypeBinary | kAttributeTypeNumber
  | kAttributeTypeString | kBackup | kBackups | kBegin | kBeginsWith | kBetween | kBilling
  | kBoth | kBrief | kCalled | kCapacity | kCheck | kClass | kCommit | kConnect | kConsistent
  | kConsumed | kContains | kCreate | kDelete | kDeletion | kDemand | kDescribe | kDisabled
  | kDrop | kEnabled | kEndpoint | kExists | kExplain | kFalse | kFrom | kGlobal | kGsi | kHash
  | kHelp | kIf | kIfNotExists | kImage | kImages | kIn | kInclude | kIndex | kIndexes
  | kInfrequent | kInsert | kInto | kIs | kKey | kKeyid | kKeys | kKms | kLike | kLimit
  | kLimits | kLsi | kMode | kNew | kNot | kNowait | kNull | kNumber | kOld | kOn | kOnly | kOr
  | kPitr | kPrimary | kProjecting | kProtection | kProvisioned | kQuit | kRange | kRatelimit
  | kRcu | kRemove | kReplace | kReplica | kRestore | kReturn | kRollback | kSelect | kSet
  | kShow | kSize | kSse | kStandard | kStream | kTable | kTables | kTags | kThroughput | kTo
  | kTotal | kTrue | kTtl | kUnlimited | kUpdate | kUpdated | kUpsert | kValues | kVersion
  | kWarm | kWcu | kWhere | kWith | kCosine | kDimensions | kDistance | kDotProduct
  | kEuclidean | kFilter | kNearest | kSearch | kVector | kVsi | tDquotedString | tEqual
  | tFloatingPointNumber | tGreaterThan | tGreaterThanOrEqual | tLessThan | tLessThanOrEqual
  | tNotEqual | tTimestamp | tUnquotedString | tWholeNumber
  deriving DecidableEq, Repr

/-- A terminal is a declared token or a character the scanner passes through.
A character whose code is not positive stands for the end of the input. -/
inductive Terminal where
  | kind (kind : TokenKind)
  | character (character : Char)
  | endOfInput
  deriving DecidableEq, Repr

inductive Nonterminal where
  | input | command | explainable | controlCommand | ddlCommand | dmlCommand | getCommand
  | writeCommand | showCommand | quitCommand | showVersionCommand | helpCommand
  | connectCommand | connectEndpoint | dropTableCommand | describeCommand | createBackupCommand
  | dropBackupCommand | describeBackupCommand | restoreCommand | showBackupsCommand
  | optionalBackupType | optionalTableName | showLimitsCommand | showCreateTableCommand
  | showTablesCommand | createTableCommand | alterTableCommand | alterTableGsiCreate
  | alterTableGsiDrop | alterTableGsiUpdateElement | alterTableGsiUpdate
  | provisionedThroughputOverride | optionalProvisionedThroughputOverride
  | optionalReplicaGsiSpecification | replicaGsiSpecificationList
  | replicaGsiSpecificationListEntry | attributeNameTypeList | attributeNameType
  | attributeType | primaryKey | keySchema | keyRoleList | keyRole | keyAttrGroup
  | keyAttrNameList | billingModeAndThroughput | optionalBillingModeAndThroughput
  | warmThroughput | optionalWarmThroughput | gsiList | gsiSpecification | gsi | lsiList
  | lsiSpecification | lsi | vsiKeyword | vectorIndexList | vectorIndexSpecification
  | vectorIndex | vectorDistanceFunction | optionalVectorSearchSchema | vectorSearchSchemaList
  | vectorSearchSchemaElement | indexProjection | indexProjectionList | streamSpecification
  | optionalStreamSpecification | streamViewType | optionalSseSpecification | sseSpecification
  | tableClass | optionalTableClass | deletionProtection | optionalDeletionProtection
  | tableTags | optionalTableTags | tableTagsList | tableTag | insertCommand | replaceCommand
  | updateCommand | upsertCommand | deleteCommand | transactCommand | transactGetCommand
  | transactWriteCommand | existsCommand | setList | removeList | setElement | useLhs
  | tableName | insertColumnList | insertColumn | valueList | insertValues | insertValue
  | leeRhs | leeRhsList | mapElementList | ratelimit | optionalRatelimit | optionalReturnValue
  | selectCommand | optionalVectorSearchClause | optionalConsistent | selectProjection
  | selectAttributeList | selectAttribute | tableOptionalIndexName | optionalWhereClause
  | whereClause | logicalExpression | logicalExpressionElement | leeLhs | comparisonOp
  | optionalReturnConsumedCapacity | string | regionName | briefClause | likeClause
  | ifExistsClause | ifNotExistsClause | nowaitClause
  deriving DecidableEq, Repr

/-- What the scanner hands over, with its lexeme. -/
structure SymbolType where
  kind : Terminal
  lexeme : String
  deriving DecidableEq, Repr

abbrev Symbol := Sym Terminal Nonterminal

def tok (kind : TokenKind) : Symbol := .t (.kind kind)

def chr (character : Char) : Symbol := .t (.character character)

def nt (nonterminal : Nonterminal) : Symbol := .n nonterminal

def productions : Nonterminal → List (List Symbol)
  | .input => [
      [], [tok .semicolon], [nt .command, tok .semicolon], [nt .command],
      [tok .kExplain, nt .explainable, tok .semicolon], [tok .kExplain, nt .explainable]]
  | .command => [
      [nt .controlCommand], [nt .ddlCommand], [nt .dmlCommand], [nt .showCommand],
      [nt .helpCommand], [nt .transactCommand]]
  | .explainable => [[nt .ddlCommand], [nt .dmlCommand], [nt .transactCommand]]
  | .controlCommand => [[nt .connectCommand], [nt .quitCommand]]
  | .ddlCommand => [
      [nt .dropTableCommand], [nt .describeCommand], [nt .createTableCommand],
      [nt .alterTableCommand], [nt .createBackupCommand], [nt .dropBackupCommand],
      [nt .describeBackupCommand], [nt .restoreCommand]]
  | .dmlCommand => [[nt .getCommand], [nt .writeCommand]]
  | .getCommand => [[nt .selectCommand]]
  | .writeCommand => [
      [nt .insertCommand], [nt .replaceCommand], [nt .updateCommand], [nt .upsertCommand],
      [nt .deleteCommand], [nt .existsCommand]]
  | .showCommand => [
      [nt .showTablesCommand], [nt .showVersionCommand], [nt .showBackupsCommand],
      [nt .showLimitsCommand], [nt .showCreateTableCommand]]
  | .quitCommand => [[tok .kQuit]]
  | .showVersionCommand => [[tok .kShow, tok .kVersion]]
  | .helpCommand => [
      [tok .kHelp], [tok .kHelp, tok .kExplain], [tok .kHelp, tok .kBegin],
      [tok .kHelp, tok .kCommit], [tok .kHelp, tok .kRollback], [tok .kHelp, tok .kConnect],
      [tok .kHelp, tok .kDrop], [tok .kHelp, tok .kDrop, tok .kTable],
      [tok .kHelp, tok .kDrop, tok .kBackup], [tok .kHelp, tok .kDescribe],
      [tok .kHelp, tok .kDescribe, tok .kBackup], [tok .kHelp, tok .kShow],
      [tok .kHelp, tok .kShow, tok .kTables], [tok .kHelp, tok .kShow, tok .kLimits],
      [tok .kHelp, tok .kShow, tok .kBackups], [tok .kHelp, tok .kShow, tok .kVersion],
      [tok .kHelp, tok .kShow, tok .kCreate, tok .kTable], [tok .kHelp, tok .kCreate],
      [tok .kHelp, tok .kCreate, tok .kTable], [tok .kHelp, tok .kAlter, tok .kTable],
      [tok .kHelp, tok .kBackup], [tok .kHelp, tok .kRestore], [tok .kHelp, tok .kSelect],
      [tok .kHelp, tok .kInsert], [tok .kHelp, tok .kReplace], [tok .kHelp, tok .kUpdate],
      [tok .kHelp, tok .kUpsert], [tok .kHelp, tok .kDelete]]
  | .connectCommand => [[tok .kConnect, nt .regionName, nt .connectEndpoint]]
  | .connectEndpoint => [[], [tok .kWith, tok .kEndpoint, nt .string]]
  | .dropTableCommand => [
      [tok .kDrop, tok .kTable, nt .ifExistsClause, nt .nowaitClause, nt .string]]
  | .describeCommand => [[tok .kDescribe, nt .string]]
  | .createBackupCommand => [[tok .kBackup, tok .kTable, nt .string, tok .kCalled, nt .string]]
  | .dropBackupCommand => [[tok .kDrop, tok .kBackup, nt .string]]
  | .describeBackupCommand => [[tok .kDescribe, tok .kBackup, nt .string]]
  | .restoreCommand => [
      [tok .kRestore, tok .kTable, nt .string, tok .kFrom, tok .kBackup, nt .string],
      [tok .kRestore, tok .kTable, nt .string, tok .kFrom, nt .string, tok .kTo, tok .kPitr,
        tok .tTimestamp]]
  | .showBackupsCommand => [
      [tok .kShow, nt .optionalBackupType, tok .kBackups, nt .optionalTableName]]
  | .optionalBackupType => [[], [nt .string]]
  | .optionalTableName => [[], [nt .string]]
  | .showLimitsCommand => [[tok .kShow, tok .kLimits]]
  | .showCreateTableCommand => [
      [tok .kShow, tok .kCreate, tok .kTable, nt .ifNotExistsClause, nt .nowaitClause,
        nt .string]]
  | .showTablesCommand => [[tok .kShow, tok .kTables, nt .briefClause, nt .likeClause]]
  | .createTableCommand => [
      [tok .kCreate, tok .kTable, nt .ifNotExistsClause, nt .nowaitClause, nt .string, chr '(',
        nt .attributeNameTypeList, chr ')', nt .primaryKey,
        nt .optionalBillingModeAndThroughput, nt .optionalWarmThroughput, nt .gsiList,
        nt .lsiList, nt .vectorIndexList, nt .optionalStreamSpecification,
        nt .optionalSseSpecification, nt .optionalTableClass, nt .optionalDeletionProtection,
        nt .optionalTableTags]]
  | .alterTableCommand => [
      [tok .kAlter, tok .kTable, nt .string, tok .kSet, nt .billingModeAndThroughput,
        nt .optionalWarmThroughput],
      [tok .kAlter, tok .kTable, nt .string, tok .kSet, nt .warmThroughput],
      [tok .kAlter, tok .kTable, nt .string, tok .kSet, nt .sseSpecification],
      [tok .kAlter, tok .kTable, nt .string, tok .kSet, nt .tableClass],
      [tok .kAlter, tok .kTable, nt .string, tok .kSet, nt .streamSpecification],
      [tok .kAlter, tok .kTable, nt .string, tok .kSet, nt .deletionProtection],
      [tok .kAlter, tok .kTable, nt .string, chr '(', nt .attributeNameTypeList, chr ')',
        tok .kCreate, tok .kGsi, nt .alterTableGsiCreate],
      [tok .kAlter, tok .kTable, nt .string, tok .kDrop, tok .kGsi, nt .alterTableGsiDrop],
      [tok .kAlter, tok .kTable, nt .string, chr '(', nt .attributeNameTypeList, chr ')',
        tok .kCreate, nt .vsiKeyword, nt .vectorIndex],
      [tok .kAlter, tok .kTable, nt .string, chr '(', chr ')', tok .kCreate, nt .vsiKeyword,
        nt .vectorIndex],
      [tok .kAlter, tok .kTable, nt .string, tok .kCreate, nt .vsiKeyword, nt .vectorIndex],
      [tok .kAlter, tok .kTable, nt .string, tok .kDrop, nt .vsiKeyword, nt .string],
      [tok .kAlter, tok .kTable, nt .string, tok .kSet, nt .billingModeAndThroughput,
        nt .optionalWarmThroughput, tok .kUpdate, tok .kGsi, chr '(', nt .alterTableGsiUpdate,
        chr ')'],
      [tok .kAlter, tok .kTable, nt .string, tok .kUpdate, tok .kGsi, chr '(',
        nt .alterTableGsiUpdate, chr ')'],
      [tok .kAlter, tok .kTable, nt .string, tok .kSet, tok .kTtl, tok .kDisabled],
      [tok .kAlter, tok .kTable, nt .string, tok .kSet, tok .kTtl, chr '(', nt .string,
        chr ')'],
      [tok .kAlter, tok .kTable, nt .string, tok .kSet, tok .kPitr, tok .kEnabled],
      [tok .kAlter, tok .kTable, nt .string, tok .kSet, tok .kPitr, tok .kDisabled],
      [tok .kAlter, tok .kTable, nt .string, tok .kDrop, tok .kReplica, nt .string],
      [tok .kAlter, tok .kTable, nt .string, tok .kAdd, tok .kReplica, nt .string,
        nt .optionalTableClass, nt .optionalProvisionedThroughputOverride,
        nt .optionalReplicaGsiSpecification],
      [tok .kAlter, tok .kTable, nt .string, tok .kUpdate, tok .kReplica, nt .string,
        nt .optionalTableClass, nt .optionalProvisionedThroughputOverride,
        nt .optionalReplicaGsiSpecification]]
  | .alterTableGsiCreate => [
      [nt .string, tok .kOn, nt .keySchema, nt .indexProjection,
        nt .optionalBillingModeAndThroughput, nt .optionalWarmThroughput]]
  | .alterTableGsiDrop => [[nt .string]]
  | .alterTableGsiUpdateElement => [
      [nt .string, tok .kSet, nt .billingModeAndThroughput],
      [nt .string, tok .kSet, nt .warmThroughput]]
  | .alterTableGsiUpdate => [
      [nt .alterTableGsiUpdateElement],
      [nt .alterTableGsiUpdate, chr ',', nt .alterTableGsiUpdateElement]]
  | .provisionedThroughputOverride => [[chr '(', tok .tWholeNumber, tok .kRcu, chr ')']]
  | .optionalProvisionedThroughputOverride => [[nt .provisionedThroughputOverride], []]
  | .optionalReplicaGsiSpecification => [
      [tok .kGsi, chr '(', nt .replicaGsiSpecificationList, chr ')'], []]
  | .replicaGsiSpecificationList => [
      [nt .replicaGsiSpecificationListEntry],
      [nt .replicaGsiSpecificationList, chr ',', nt .replicaGsiSpecificationListEntry]]
  | .replicaGsiSpecificationListEntry => [[nt .string, nt .provisionedThroughputOverride]]
  | .attributeNameTypeList => [
      [nt .attributeNameType], [nt .attributeNameTypeList, chr ',', nt .attributeNameType]]
  | .attributeNameType => [[nt .string, nt .attributeType]]
  | .attributeType => [
      [tok .kAttributeTypeNumber], [tok .kAttributeTypeString], [tok .kAttributeTypeBinary]]
  | .primaryKey => [[tok .kPrimary, tok .kKey, nt .keySchema]]
  | .keySchema => [[chr '(', nt .keyRoleList, chr ')']]
  | .keyRoleList => [[nt .keyRole], [nt .keyRoleList, chr ',', nt .keyRole]]
  | .keyRole => [[nt .keyAttrGroup, tok .kHash], [nt .keyAttrGroup, tok .kRange]]
  | .keyAttrGroup => [[nt .string], [chr '(', nt .keyAttrNameList, chr ')']]
  | .keyAttrNameList => [[nt .string], [nt .keyAttrNameList, chr ',', nt .string]]
  | .billingModeAndThroughput => [
      [tok .kBilling, tok .kMode, tok .kOn, tok .kDemand],
      [tok .kBilling, tok .kMode, tok .kOn, tok .kDemand, tok .kThroughput, chr '(',
        tok .tWholeNumber, tok .kRcu, chr ',', tok .tWholeNumber, tok .kWcu, chr ')'],
      [tok .kBilling, tok .kMode, tok .kOn, tok .kDemand, tok .kThroughput, chr '(',
        tok .tWholeNumber, tok .kWcu, chr ',', tok .tWholeNumber, tok .kRcu, chr ')'],
      [tok .kBilling, tok .kMode, tok .kOn, tok .kDemand, tok .kThroughput, tok .kUnlimited],
      [tok .kBilling, tok .kMode, tok .kProvisioned, chr '(', tok .tWholeNumber, tok .kRcu,
        chr ',', tok .tWholeNumber, tok .kWcu, chr ')'],
      [tok .kBilling, tok .kMode, tok .kProvisioned, chr '(', tok .tWholeNumber, tok .kWcu,
        chr ',', tok .tWholeNumber, tok .kRcu, chr ')']]
  | .optionalBillingModeAndThroughput => [[nt .billingModeAndThroughput], []]
  | .warmThroughput => [
      [tok .kWarm, tok .kThroughput, chr '(', tok .tWholeNumber, tok .kRcu, chr ',',
        tok .tWholeNumber, tok .kWcu, chr ')'],
      [tok .kWarm, tok .kThroughput, chr '(', tok .tWholeNumber, tok .kWcu, chr ',',
        tok .tWholeNumber, tok .kRcu, chr ')']]
  | .optionalWarmThroughput => [[nt .warmThroughput], []]
  | .gsiList => [[tok .kGsi, chr '(', nt .gsiSpecification, chr ')'], []]
  | .gsiSpecification => [[nt .gsi], [nt .gsiSpecification, chr ',', nt .gsi]]
  | .gsi => [
      [nt .string, tok .kOn, nt .keySchema, nt .indexProjection,
        nt .optionalBillingModeAndThroughput, nt .optionalWarmThroughput]]
  | .lsiList => [[tok .kLsi, chr '(', nt .lsiSpecification, chr ')'], []]
  | .lsiSpecification => [[nt .lsi], [nt .lsiSpecification, chr ',', nt .lsi]]
  | .lsi => [[nt .string, tok .kOn, nt .keySchema, nt .indexProjection]]
  | .vsiKeyword => [[tok .kVsi], [tok .kVector], [tok .kVector, tok .kIndex]]
  | .vectorIndexList => [[nt .vsiKeyword, chr '(', nt .vectorIndexSpecification, chr ')'], []]
  | .vectorIndexSpecification => [
      [nt .vectorIndex], [nt .vectorIndexSpecification, chr ',', nt .vectorIndex]]
  | .vectorIndex => [
      [nt .string, tok .kOn, nt .string, tok .kDimensions, tok .tWholeNumber, tok .kDistance,
        nt .vectorDistanceFunction, nt .optionalVectorSearchSchema, nt .indexProjection]]
  | .vectorDistanceFunction => [[tok .kCosine], [tok .kEuclidean], [tok .kDotProduct]]
  | .optionalVectorSearchSchema => [
      [tok .kSearch, tok .kKey, chr '(', nt .vectorSearchSchemaList, chr ')'], []]
  | .vectorSearchSchemaList => [
      [nt .vectorSearchSchemaElement],
      [nt .vectorSearchSchemaList, chr ',', nt .vectorSearchSchemaElement]]
  | .vectorSearchSchemaElement => [[nt .string, tok .kHash], [nt .string, tok .kFilter]]
  | .indexProjection => [
      [tok .kProjecting, tok .kAll], [tok .kProjecting, tok .kKeys, tok .kOnly],
      [tok .kProjecting, tok .kInclude, chr '(', nt .indexProjectionList, chr ')']]
  | .indexProjectionList => [[nt .string], [nt .indexProjectionList, chr ',', nt .string]]
  | .streamSpecification => [
      [tok .kStream, chr '(', nt .streamViewType, chr ')'], [tok .kStream, tok .kDisabled]]
  | .optionalStreamSpecification => [[nt .streamSpecification], []]
  | .streamViewType => [
      [tok .kKeys, tok .kOnly], [tok .kNew, tok .kImage], [tok .kOld, tok .kImage],
      [tok .kBoth, tok .kImages]]
  | .optionalSseSpecification => [[nt .sseSpecification], []]
  | .sseSpecification => [
      [tok .kSse, tok .kDisabled],
      [tok .kSse, chr '(', tok .kKeyid, nt .string, tok .kKms, chr ')'],
      [tok .kSse, chr '(', tok .kKeyid, nt .string, tok .kAes256, chr ')']]
  | .tableClass => [
      [tok .kTable, tok .kClass, tok .kStandard],
      [tok .kTable, tok .kClass, tok .kStandard, tok .kInfrequent, tok .kAccess]]
  | .optionalTableClass => [[nt .tableClass], []]
  | .deletionProtection => [
      [tok .kDeletion, tok .kProtection, tok .kEnabled],
      [tok .kDeletion, tok .kProtection, tok .kDisabled]]
  | .optionalDeletionProtection => [[nt .deletionProtection], []]
  | .tableTags => [[tok .kTags, chr '(', nt .tableTagsList, chr ')']]
  | .optionalTableTags => [[nt .tableTags], []]
  | .tableTagsList => [[nt .tableTag], [nt .tableTagsList, chr ',', nt .tableTag]]
  | .tableTag => [[nt .string, chr ':', nt .string]]
  | .insertCommand => [
      [tok .kInsert, tok .kInto, nt .tableName, chr '(', nt .insertColumnList, chr ')',
        tok .kValues, nt .valueList, nt .optionalRatelimit]]
  | .replaceCommand => [
      [tok .kReplace, tok .kInto, nt .tableName, chr '(', nt .insertColumnList, chr ')',
        tok .kValues, nt .valueList, nt .optionalRatelimit, nt .optionalReturnValue]]
  | .updateCommand => [
      [tok .kUpdate, nt .tableOptionalIndexName, tok .kSet, nt .setList,
        nt .optionalWhereClause, nt .optionalRatelimit, nt .optionalReturnValue],
      [tok .kUpdate, nt .tableOptionalIndexName, tok .kRemove, nt .removeList,
        nt .optionalWhereClause, nt .optionalRatelimit, nt .optionalReturnValue]]
  | .upsertCommand => [
      [tok .kUpsert, nt .tableOptionalIndexName, tok .kSet, nt .setList,
        nt .optionalWhereClause, nt .optionalRatelimit, nt .optionalReturnValue]]
  | .deleteCommand => [
      [tok .kDelete, tok .kFrom, nt .tableOptionalIndexName, nt .optionalWhereClause,
        nt .optionalRatelimit, nt .optionalReturnValue]]
  | .transactCommand => [
      [tok .kBegin, tok .semicolon, nt .transactGetCommand, tok .kCommit],
      [tok .kBegin, tok .semicolon, nt .transactWriteCommand, tok .kCommit],
      [tok .kBegin, tok .semicolon, nt .transactGetCommand, tok .kRollback],
      [tok .kBegin, tok .semicolon, nt .transactWriteCommand, tok .kRollback],
      [tok .kBegin, tok .semicolon, tok .kRollback]]
  | .transactGetCommand => [
      [nt .getCommand, tok .semicolon],
      [nt .transactGetCommand, nt .getCommand, tok .semicolon]]
  | .transactWriteCommand => [
      [nt .writeCommand, tok .semicolon],
      [nt .transactWriteCommand, nt .writeCommand, tok .semicolon]]
  | .existsCommand => [
      [tok .kExists, nt .selectCommand], [tok .kNot, tok .kExists, nt .selectCommand]]
  | .setList => [[nt .setElement], [nt .setList, chr ',', nt .setElement]]
  | .removeList => [[nt .leeLhs], [nt .removeList, chr ',', nt .leeLhs]]
  | .setElement => [
      [nt .leeLhs, tok .tEqual, nt .leeRhs],
      [nt .leeLhs, tok .tEqual, nt .useLhs, chr '+', nt .leeRhs],
      [nt .leeLhs, tok .tEqual, nt .useLhs, chr '-', nt .leeRhs],
      [nt .leeLhs, tok .tEqual, nt .useLhs]]
  | .useLhs => [
      [tok .tUnquotedString],
      [tok .kIfNotExists, chr '(', nt .leeLhs, chr ',', nt .leeRhs, chr ')']]
  | .tableName => [[nt .string]]
  | .insertColumnList => [[nt .insertColumn], [nt .insertColumnList, chr ',', nt .insertColumn]]
  | .insertColumn => [[nt .string]]
  | .valueList => [
      [chr '(', nt .insertValues, chr ')'],
      [nt .valueList, chr ',', chr '(', nt .insertValues, chr ')']]
  | .insertValues => [[nt .insertValue], [nt .insertValues, chr ',', nt .insertValue]]
  | .insertValue => [
      [tok .tWholeNumber], [tok .tFloatingPointNumber], [tok .tDquotedString],
      [chr '[', nt .leeRhsList, chr ']'], [tok .kTrue], [tok .kFalse], [tok .kNull],
      [chr '{', nt .mapElementList, chr '}']]
  | .leeRhs => [
      [tok .tWholeNumber], [tok .tFloatingPointNumber], [tok .tDquotedString],
      [chr '[', nt .leeRhsList, chr ']'], [tok .kTrue], [tok .kFalse],
      [chr '{', nt .mapElementList, chr '}'], [tok .kNull], [chr '[', chr ']'],
      [chr '{', chr '}']]
  | .leeRhsList => [[nt .leeRhs], [nt .leeRhsList, chr ',', nt .leeRhs]]
  | .mapElementList => [
      [nt .string, chr ':', nt .leeRhs],
      [nt .mapElementList, chr ',', nt .string, chr ':', nt .leeRhs]]
  | .ratelimit => [
      [tok .kWith, tok .kRatelimit, chr '(', tok .tWholeNumber, tok .kRcu, chr ',',
        tok .tWholeNumber, tok .kWcu, chr ')'],
      [tok .kWith, tok .kRatelimit, chr '(', tok .tWholeNumber, tok .kWcu, chr ',',
        tok .tWholeNumber, tok .kRcu, chr ')'],
      [tok .kWith, tok .kRatelimit, chr '(', tok .tWholeNumber, tok .kRcu, chr ')'],
      [tok .kWith, tok .kRatelimit, chr '(', tok .tWholeNumber, tok .kWcu, chr ')']]
  | .optionalRatelimit => [[nt .ratelimit], []]
  | .optionalReturnValue => [
      [tok .kReturn, tok .kValues, tok .kAll, tok .kOld],
      [tok .kReturn, tok .kValues, tok .kAll, tok .kNew],
      [tok .kReturn, tok .kValues, tok .kUpdated, tok .kOld],
      [tok .kReturn, tok .kValues, tok .kUpdated, tok .kNew], []]
  | .selectCommand => [
      [tok .kSelect, nt .optionalConsistent, nt .selectProjection, tok .kFrom,
        nt .tableOptionalIndexName, nt .optionalWhereClause, nt .optionalVectorSearchClause,
        nt .optionalReturnConsumedCapacity, nt .optionalRatelimit]]
  | .optionalVectorSearchClause => [
      [], [tok .kNearest, tok .tWholeNumber, tok .kTo, nt .leeRhs]]
  | .optionalConsistent => [[], [tok .kConsistent]]
  | .selectProjection => [[chr '*'], [nt .selectAttributeList]]
  | .selectAttributeList => [
      [nt .selectAttribute], [nt .selectAttributeList, chr ',', nt .selectAttribute]]
  | .selectAttribute => [[nt .leeLhs]]
  | .tableOptionalIndexName => [[nt .tableName, chr '.', nt .tableName], [nt .tableName]]
  | .optionalWhereClause => [[], [nt .whereClause]]
  | .whereClause => [[tok .kWhere, nt .logicalExpression]]
  | .logicalExpression => [
      [nt .logicalExpressionElement], [tok .kNot, nt .logicalExpression],
      [chr '(', nt .logicalExpression, chr ')'],
      [nt .logicalExpression, tok .kAnd, nt .logicalExpression],
      [nt .logicalExpression, tok .kOr, nt .logicalExpression]]
  | .logicalExpressionElement => [
      [nt .leeLhs, nt .comparisonOp, nt .leeRhs], [nt .leeLhs, tok .kIs, tok .kNull],
      [nt .leeLhs, tok .kIs, tok .kNot, tok .kNull],
      [nt .leeLhs, tok .kBetween, nt .leeRhs, tok .kAnd, nt .leeRhs],
      [nt .leeLhs, tok .kIn, chr '(', nt .leeRhsList, chr ')'],
      [tok .kAttributeExists, chr '(', nt .leeLhs, chr ')'],
      [tok .kAttributeNotExists, chr '(', nt .leeLhs, chr ')'],
      [tok .kAttributeType, chr '(', nt .leeLhs, chr ',', nt .attributeType, chr ')'],
      [tok .kBeginsWith, chr '(', nt .leeLhs, chr ',', nt .string, chr ')'],
      [tok .kContains, chr '(', nt .leeLhs, chr ',', nt .string, chr ')'],
      [tok .kSize, chr '(', nt .leeLhs, chr ')', nt .comparisonOp, nt .leeRhs]]
  | .leeLhs => [
      [nt .string], [nt .leeLhs, chr '[', tok .tWholeNumber, chr ']'],
      [nt .leeLhs, chr '.', nt .leeLhs]]
  | .comparisonOp => [
      [tok .tEqual], [tok .tGreaterThan], [tok .tGreaterThanOrEqual], [tok .tLessThan],
      [tok .tLessThanOrEqual], [tok .tNotEqual]]
  | .optionalReturnConsumedCapacity => [
      [], [tok .kReturn, tok .kConsumed, tok .kCapacity, tok .kIndexes],
      [tok .kReturn, tok .kConsumed, tok .kCapacity, tok .kTotal]]
  | .string => [[tok .tDquotedString], [tok .tUnquotedString]]
  | .regionName => [[nt .string]]
  | .briefClause => [[], [tok .kBrief]]
  | .likeClause => [[], [tok .kLike, nt .string]]
  | .ifExistsClause => [[], [tok .kIf, tok .kExists]]
  | .ifNotExistsClause => [[], [tok .kIf, tok .kNot, tok .kExists]]
  | .nowaitClause => [[], [tok .kNowait]]

/-- `%left K_OR`, `%left K_AND`, `%left K_NOT`, `%left K_BETWEEN` and
`%left '.' '[' ']'`, loosest first. -/
def precedence : Terminal → Option Nat
  | .kind .kOr => some 1
  | .kind .kAnd => some 2
  | .kind .kNot => some 3
  | .kind .kBetween => some 4
  | .character '.' | .character '[' | .character ']' => some 5
  | _ => none

def statementGrammar : Grammar Terminal Nonterminal where
  rules := productions
  start := .input
  size := 334
  prec := precedence

theorem statementGrammar_startApart : statementGrammar.StartApart := by
  intro A
  cases A <;> decide

end DdbShell
