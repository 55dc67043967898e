import DdbShell.Lib.Obedient
import DdbShell.Parser.Halting

/-!
The automaton of the statement grammar. Its states are visited once: none has
two complete rules, and wherever a complete rule and a token compete, the token
cannot come after the rule or both have a declared precedence. That is between
the operators of a WHERE clause and within a path, and nowhere else.
-/

namespace DdbShell

open LR (Grammar Item Trie)

/-- The clauses of CREATE TABLE behind its throughput, by how they begin, and
what ends the statement. -/
def tableClauses : List Terminal :=
  [.kind .kGsi, .kind .kLsi, .kind .kVsi, .kind .kVector, .kind .kStream, .kind .kSse,
    .kind .kTable, .kind .kDeletion, .kind .kTags, .kind .semicolon]

/-- What can come behind a WHERE clause. -/
def afterWhere : List Terminal :=
  [.kind .kNearest, .kind .kReturn, .kind .kWith, .kind .semicolon]

def names : List Terminal := [.kind .tDquotedString, .kind .tUnquotedString]

/-- What can come after the nonterminals that compete with a token in some
state, and after those that end in one of them. -/
def follow : Nonterminal → Option (List Terminal)
  | .input => some []
  | .command | .explainable | .controlCommand | .ddlCommand | .dmlCommand | .getCommand
  | .writeCommand | .showCommand | .helpCommand | .connectCommand | .connectEndpoint
  | .showBackupsCommand | .optionalTableName | .showTablesCommand | .likeClause
  | .createTableCommand | .optionalTableTags | .alterTableCommand | .alterTableGsiCreate
  | .optionalReplicaGsiSpecification | .insertCommand | .replaceCommand | .updateCommand
  | .upsertCommand | .deleteCommand | .existsCommand | .selectCommand | .optionalReturnValue =>
      some [.kind .semicolon]
  | .optionalBackupType => some [.kind .kBackups]
  | .briefClause => some [.kind .kLike, .kind .semicolon]
  | .ifExistsClause | .ifNotExistsClause => some (.kind .kNowait :: names)
  | .nowaitClause => some names
  | .billingModeAndThroughput | .optionalBillingModeAndThroughput =>
      some (.character ')' :: .character ',' :: .kind .kUpdate :: .kind .kWarm :: tableClauses)
  | .optionalWarmThroughput =>
      some (.character ')' :: .character ',' :: .kind .kUpdate :: tableClauses)
  | .gsi | .gsiSpecification | .alterTableGsiUpdate | .alterTableGsiUpdateElement =>
      some [.character ')', .character ',']
  | .gsiList => some (tableClauses.drop 1)
  | .lsiList => some (tableClauses.drop 2)
  | .vsiKeyword => some (.character '(' :: names)
  | .optionalVectorSearchSchema => some [.kind .kProjecting]
  | .vectorIndexList => some (tableClauses.drop 4)
  | .optionalStreamSpecification => some (tableClauses.drop 5)
  | .optionalSseSpecification => some (tableClauses.drop 6)
  | .tableClass | .optionalTableClass =>
      some (.character '(' :: .kind .kGsi :: tableClauses.drop 7)
  | .optionalDeletionProtection => some (tableClauses.drop 8)
  | .optionalProvisionedThroughputOverride => some [.kind .kGsi, .kind .semicolon]
  | .setElement | .setList | .removeList =>
      some [.character ',', .kind .kWhere, .kind .kReturn, .kind .kWith, .kind .semicolon]
  | .tableOptionalIndexName =>
      some (.kind .kSet :: .kind .kRemove :: .kind .kWhere :: afterWhere)
  | .whereClause | .optionalWhereClause => some afterWhere
  | .logicalExpression | .logicalExpressionElement =>
      some (.kind .kAnd :: .kind .kOr :: .character ')' :: afterWhere)
  | .optionalVectorSearchClause => some [.kind .kReturn, .kind .kWith, .kind .semicolon]
  | .optionalReturnConsumedCapacity => some [.kind .kWith, .kind .semicolon]
  | .optionalRatelimit => some [.kind .kReturn, .kind .semicolon]
  | .optionalConsistent => some (.character '*' :: names)
  | .selectAttribute | .selectAttributeList => some [.character ',', .kind .kFrom]
  | .selectProjection => some [.kind .kFrom]
  | _ => none

theorem statementGrammar_sized : statementGrammar.Sized nonterminals :=
  ⟨mem_nonterminals, by decide +kernel⟩

/-- The number a state is kept under. -/
def stateNumber (state : List (Item Terminal Nonterminal)) : Nat :=
  state.foldl (fun n i => symbols i.rest (symbols i.done (31 * n + i.lhs.ctorIdx))) 0
where
  symbols (list : List Symbol) (n : Nat) : Nat := list.foldl (fun n X => 31 * n + symbol X) n
  symbol : Symbol → Nat
    | .t (.kind kind) => kind.ctorIdx
    | .t (.character character) => character.toNat
    | .t .endOfInput => 0
    | .n A => A.ctorIdx

/-- What is checked of every nonterminal's rules. -/
def followChecked (A : Nonterminal) : Bool :=
  (productions A).all fun rhs =>
    (!rhs.all statementGrammar.nullableSym || statementGrammar.nullable A) &&
      statementGrammar.followsIn follow 12 A rhs

theorem followChecked_all : nonterminals.all followChecked = true := by decide +kernel

theorem statementGrammar_follows : statementGrammar.Follows follow 12 := by
  have hchecked : ∀ A, ∀ rhs ∈ productions A,
      (!rhs.all statementGrammar.nullableSym || statementGrammar.nullable A) = true ∧
        statementGrammar.followsIn follow 12 A rhs = true := by
    intro A rhs hrhs
    have hA := List.all_eq_true.mp followChecked_all A (statementGrammar_sized.all A)
    exact Bool.and_eq_true_iff.mp (List.all_eq_true.mp hA rhs hrhs)
  refine ⟨?_, fun A rhs hrhs => (hchecked A rhs hrhs).2⟩
  intro A rhs hrhs hall
  have hnull := (hchecked A rhs hrhs).1
  rwa [hall, Bool.not_true, Bool.false_or] at hnull

/-- The rules that have a precedence. -/
def rankedRules : List (Nonterminal × List Symbol) := [
  (.insertValue, [chr '[', nt .leeRhsList, chr ']']),
  (.leeRhs, [chr '[', nt .leeRhsList, chr ']']), (.leeRhs, [chr '[', chr ']']),
  (.tableOptionalIndexName, [nt .tableName, chr '.', nt .tableName]),
  (.logicalExpression, [tok .kNot, nt .logicalExpression]),
  (.logicalExpression, [nt .logicalExpression, tok .kAnd, nt .logicalExpression]),
  (.logicalExpression, [nt .logicalExpression, tok .kOr, nt .logicalExpression]),
  (.logicalExpressionElement,
    [nt .leeLhs, tok .kBetween, nt .leeRhs, tok .kAnd, nt .leeRhs]),
  (.leeLhs, [nt .leeLhs, chr '[', tok .tWholeNumber, chr ']']),
  (.leeLhs, [nt .leeLhs, chr '.', nt .leeLhs])]

theorem rankedRules_all : (nonterminals.all fun A => (productions A).all fun rhs =>
    (statementGrammar.rulePrec rhs).isNone || (A, rhs) ∈ rankedRules) = true := by
  decide +kernel

def rankedTokens : List Terminal :=
  [.kind .kOr, .kind .kAnd, .kind .kNot, .kind .kBetween, .character '.', .character '[',
    .character ']']

theorem statementGrammar_ranked : statementGrammar.Ranked rankedRules rankedTokens where
  rules A rhs hrhs hrank := by
    have hA := List.all_eq_true.mp rankedRules_all A (mem_nonterminals A)
    simpa [hrank, ← Option.not_isSome] using List.all_eq_true.mp hA rhs hrhs
  tokens t ht := by
    change (precedence t).isSome = true at ht
    unfold precedence at ht
    split at ht <;> first | decide | cases ht

/-- What is checked of the items of every state. -/
def stateChecked (items : List (Item Terminal Nonterminal)) : Bool :=
  statementGrammar.settled follow items &&
    (rankedRules.all (statementGrammar.completes rankedTokens items) &&
      statementGrammar.gives follow rankedTokens items)

set_option maxRecDepth 4000 in
/-- The automaton has fewer than 1700 transitions. -/
theorem explored : statementGrammar.explore stateNumber stateChecked 3000
    [statementGrammar.initial .input, []] (Trie.empty 8) = true := by
  decide +kernel

theorem states_checked (symbols : List Symbol) :
    stateChecked (statementGrammar.closure (statementGrammar.stateOf symbols)) = true :=
  LR.forall_stateOf explored symbols

theorem statementGrammar_settled : statementGrammar.Settled follow 12 nonterminals where
  startApart := statementGrammar_startApart
  sized := statementGrammar_sized
  follows := statementGrammar_follows
  states symbols := (Bool.and_eq_true_iff.mp (states_checked symbols)).1

theorem statementGrammar_obeyed : statementGrammar.Obeyed follow rankedRules rankedTokens where
  ranked := statementGrammar_ranked
  completes symbols :=
    List.all_eq_true.mp
      (Bool.and_eq_true_iff.mp (Bool.and_eq_true_iff.mp (states_checked symbols)).2).1
  gives symbols := (Bool.and_eq_true_iff.mp (Bool.and_eq_true_iff.mp (states_checked symbols)).2).2

end DdbShell
