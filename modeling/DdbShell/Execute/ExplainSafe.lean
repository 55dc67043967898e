import DdbShell.Execute.Privileges

/-!
EXPLAIN changes nothing: a statement run with the flag has its requests
serialized, and of its own operations it makes those that change nothing. So no
such statement can make a mutating call, whatever the client answers and however
many pages it reads.
-/

namespace DdbShell

open Exec

/-- What an explained statement may do. -/
def Effect.explains (statement : Explainable) : Effect → Prop
  | .client call => (∃ request, call = .explainRequest request) ∨
      statement.permits call ∧ call.mutating = false
  | .emit _ => True

variable {statement : Explainable}

theorem explains_call {c : ClientCall} (h : statement.permits c) (hquiet : c.mutating = false) :
    (Effect.client c).explains statement :=
  .inr ⟨h, hquiet⟩

theorem explains_emit (outcome : ExecOutcome) :
    Always (Effect.explains statement) (emit outcome) :=
  always_emit trivial

theorem explains_emitSingle {x : Exec ExecOutcome} (hx : Always (Effect.explains statement) x) :
    Always (Effect.explains statement) (emitSingle x) :=
  hx.bind fun _ => explains_emit _

theorem explains_explainBlock (apiName : String) (request : ExplainRequest) :
    Always (Effect.explains statement) (explainBlock apiName request) :=
  (always_call (P := Effect.explains statement) (.inl ⟨request, rfl⟩)).bind fun _ => always_pure _

theorem explains_explainOne (apiName : String) (request : ExplainRequest) :
    Always (Effect.explains statement) (explainOne apiName request) :=
  (explains_explainBlock _ _).bind fun _ => always_pure _

/-! ### SELECT, INSERT, UPDATE and DELETE -/

theorem explains_executeSelect (cmd : SelectCmd) (aliasPrefix : String) :
    Always (Effect.explains (.select cmd)) (executeSelectExplain cmd aliasPrefix) := by
  have hdescribe : (Effect.client (.describeTable cmd.table)).explains (.select cmd) :=
    explains_call rfl rfl
  refine (always_execPlanSelect hdescribe aliasPrefix).bind fun plan => ?_
  exact (explains_explainBlock _ _).bind fun _ => always_pure _

theorem explains_explainRows (cmd : InsertCmd) (pk : String) (blocks : List ExplainBlock)
    (rows : List (List Value)) :
    Always (Effect.explains statement) (explainRows cmd pk blocks rows) := by
  induction rows generalizing blocks with
  | nil => exact always_pure _
  | cons row rows ih =>
      refine (always_makePutRequest cmd pk row).bind fun request => ?_
      exact (explains_explainBlock _ _).bind fun block => ih _

theorem explains_executeInsert (cmd : InsertCmd) :
    Always (Effect.explains (.insert cmd)) (executeInsertExplain cmd) := by
  have hdescribe : (Effect.client (.describeTable cmd.tableName)).explains (.insert cmd) :=
    explains_call rfl rfl
  refine (always_insertPartitionKey hdescribe).bind fun pk => ?_
  exact (explains_explainRows _ _ _ _).bind fun _ => always_pure _

theorem explains_explainItems (template : WriteTemplate) (blocks : List ExplainBlock)
    (items : List ItemRow) :
    Always (Effect.explains statement) (explainItems template blocks items) := by
  induction items generalizing blocks with
  | nil => exact always_pure _
  | cons item items ih => exact (explains_explainBlock _ _).bind fun block => ih _

theorem explains_explainPage (explainPages : Bool) (request : WriteReadPlan)
    (blocks : List ExplainBlock) :
    Always (Effect.explains statement) (explainPage explainPages request blocks) := by
  unfold explainPage
  split
  · exact (explains_explainBlock _ _).bind fun _ => always_pure _
  · exact always_pure _

/-- The page loop really reads, and explains the writes. -/
theorem explains_bulkLoop {table : String} (hpages : PermitsPages (Effect.explains statement) table)
    (explainPages : Bool) {read : WriteReadPlan} (h : read.table = table)
    (template : WriteTemplate) (wantRv : Bool) (budget : Nat) (startKey : Option ValueMap)
    (blocks : List ExplainBlock) (acct : BulkWriteOutcome) :
    Always (Effect.explains statement)
      (bulkLoop true explainPages read template wantRv budget startKey blocks acct) := by
  induction budget generalizing startKey blocks acct with
  | zero => exact always_cut
  | succ budget ih =>
      refine (explains_explainPage _ _ _).bind fun blocks => ?_
      refine (always_readPage hpages ((read.startingAt_table _).trans h)).bind fun page => ?_
      refine ((explains_explainItems _ _ _).bind fun _ => always_pure _).bind fun result => ?_
      dsimp only
      split
      · exact always_pure _
      · exact ih _ _ _

theorem explains_executeOne (request : WriteTemplate) (wantRv : Bool) (verb : WriteVerb) :
    Always (Effect.explains statement) (executeOne true request wantRv verb) :=
  (explains_explainBlock _ _).bind fun _ => explains_emit _

theorem explains_executeUpdate (budget : Nat) (cmd : UpdateCmd) :
    Always (Effect.explains (.update cmd)) (executeUpdate budget cmd true) := by
  have hdescribe : (Effect.client (.describeTable cmd.table)).explains (.update cmd) :=
    explains_call rfl rfl
  have hpages : PermitsPages (Effect.explains (.update cmd)) cmd.table :=
    ⟨fun _ h => explains_call h rfl, fun _ h => explains_call h rfl⟩
  refine (always_resolveKeySchema hdescribe _).bind fun base => always_nextPrefix.bind fun _ => ?_
  dsimp only
  split
  · exact explains_executeOne _ _ _
  · refine (always_enumerationPlan hdescribe _ _ _).bind fun qplan =>
      always_nextPrefix.bind fun _ => ?_
    exact (explains_bulkLoop hpages _ (buildWriteRead_table _ _ _ _ _ _ _ _) _ _ _ _ _ _).bind
      fun _ => explains_emit _

theorem explains_explainDeleteRead (read : WriteReadPlan) :
    Always (Effect.explains statement) (explainDeleteRead true read) := by
  refine (explains_explainBlock _ _).bind fun _ => ?_
  cases read <;> exact always_pure _

theorem explains_executeDelete (budget : Nat) (cmd : DeleteCmd) :
    Always (Effect.explains (.delete cmd)) (executeDelete budget cmd true) := by
  have hdescribe : (Effect.client (.describeTable cmd.table)).explains (.delete cmd) :=
    explains_call rfl rfl
  have hpages : PermitsPages (Effect.explains (.delete cmd)) cmd.table :=
    ⟨fun _ h => explains_call h rfl, fun _ h => explains_call h rfl⟩
  refine (always_resolveKeySchema hdescribe _).bind fun base => always_nextPrefix.bind fun _ => ?_
  dsimp only
  split
  · exact explains_executeOne _ _ _
  · refine (always_enumerationPlan hdescribe _ _ _).bind fun qplan =>
      always_nextPrefix.bind fun _ => ?_
    refine (explains_explainDeleteRead _).bind fun result => ?_
    split
    · exact (explains_bulkLoop hpages _ (buildWriteRead_table _ _ _ _ _ _ _ _) _ _ _ _ _ _).bind
        fun _ => explains_emit _
    · exact explains_emit _

/-- The inner statements only describe their tables. -/
theorem explains_executeTransact (cmd : TransactCmd) :
    Always (Effect.explains (.transact cmd)) (executeTransact cmd true) := by
  have hdescribe : ∀ item ∈ cmd.items, ∀ table, item.table = some table →
      (Effect.client (.describeTable table)).explains (.transact cmd) :=
    fun item hitem table htable => explains_call ⟨item, hitem, htable⟩ rfl
  unfold executeTransact
  split
  · exact explains_emit _
  · split
    · refine (always_buildItems (fun b item hitem =>
        always_buildReadItem (hdescribe item hitem) b) _).bind fun b => ?_
      split
      · exact explains_emit _
      · exact (explains_explainBlock _ _).bind fun _ => explains_emit _
    · refine (always_buildItems (fun b item hitem =>
        always_buildWriteItem (hdescribe item hitem) b) _).bind fun b => ?_
      split
      · exact explains_emit _
      · exact (explains_explainBlock _ _).bind fun _ => explains_emit _

/-! ### Tables and backups -/

theorem explains_executeDropTable (cmd : DropTableCmd) :
    Always (Effect.explains (.dropTable cmd)) (executeDropTableExplain cmd) := by
  refine Always.bind ?_ fun found => ?_
  · unfold dropProbe
    split
    · next hexists =>
        have hdescribe : (Effect.client (.describeTable cmd.table)).explains (.dropTable cmd) :=
          explains_call ⟨rfl, hexists⟩ rfl
        exact (always_attempt hdescribe).bind fun _ => always_pure _
    · exact always_pure _
  · split
    · exact explains_explainOne _ _
    · exact always_pure _

theorem explains_executeCreateTable (cmd : CreateTableCmd) :
    Always (Effect.explains (.createTable cmd)) (executeCreateTableExplain cmd) := by
  refine (always_ofExcept _).bind fun _ => Always.bind ?_ fun found => ?_
  · unfold createProbe
    split
    · next hexists =>
        have hdescribe : (Effect.client (.describeTable cmd.tableName)).explains
            (.createTable cmd) := explains_call ⟨rfl, hexists⟩ rfl
        exact (always_attempt hdescribe).bind fun _ => always_pure _
    · exact always_pure _
  · split
    · exact always_pure _
    · exact (explains_explainBlock _ _).bind fun _ => always_pure _

theorem explains_executeAlterTtl (cmd : AlterTtlCmd) :
    Always (Effect.explains (.alterTtl cmd)) (executeAlterTtl cmd true) := by
  have hprobe : (Effect.client (.describeTimeToLive cmd.table)).explains (.alterTtl cmd) :=
    explains_call rfl rfl
  refine (always_call hprobe).bind fun probe => ?_
  split
  · exact always_pure _
  · exact explains_explainOne _ _

theorem explains_executeRestore (cmd : RestoreCmd) :
    Always (Effect.explains (.restore cmd)) (executeRestore cmd true) := by
  unfold executeRestore
  split
  · exact explains_explainOne _ _
  · exact explains_explainOne _ _

theorem explains_explainAll (requests : List (String × ExplainRequest × ExplainFormat)) :
    Always (Effect.explains statement) (explainAll requests) := by
  induction requests with
  | nil => exact always_pure _
  | cons request requests ih =>
      exact (explains_explainBlock _ _).bind fun _ => ih.bind fun _ => always_pure _

/-! ### Statements -/

theorem explains_executeExplained (budget : Nat) (statement : Explainable) :
    Always (Effect.explains statement) (executeExplained budget statement) := by
  cases statement with
  | select cmd =>
      exact always_nextPrefix.bind fun _ => explains_emitSingle (explains_executeSelect cmd _)
  | insert cmd => exact explains_emitSingle (explains_executeInsert cmd)
  | update cmd => exact explains_executeUpdate budget cmd
  | delete cmd => exact explains_executeDelete budget cmd
  | transact cmd => exact explains_executeTransact cmd
  | dropTable cmd => exact explains_emitSingle (explains_executeDropTable cmd)
  | describe cmd => exact explains_emitSingle ((explains_explainAll _).bind fun _ => always_pure _)
  | createTable cmd => exact explains_emitSingle (explains_executeCreateTable cmd)
  | alterTable cmd =>
      exact explains_emitSingle ((always_ofExcept _).bind fun _ => explains_explainOne _ _)
  | alterTtl cmd => exact explains_emitSingle (explains_executeAlterTtl cmd)
  | alterPitr cmd => exact explains_emitSingle (explains_explainOne _ _)
  | alterReplica cmd => exact explains_emitSingle (explains_explainOne _ _)
  | createBackup cmd => exact explains_emitSingle (explains_explainOne _ _)
  | dropBackup cmd => exact explains_emitSingle (explains_explainOne _ _)
  | describeBackup cmd => exact explains_emitSingle (explains_explainOne _ _)
  | restore cmd => exact explains_emitSingle (explains_executeRestore cmd)

/-- No mutating call. -/
def Effect.quiet : Effect → Prop
  | .client call => call.mutating = false
  | .emit _ => True

theorem quiet_of_explains {op : Effect} (h : op.explains statement) : op.quiet := by
  cases op with
  | emit outcome => trivial
  | client call =>
      rcases h with ⟨request, rfl⟩ | ⟨-, hquiet⟩
      · rfl
      · exact hquiet

/-- No statement with the EXPLAIN flag makes a mutating call, from any alias
counter and whatever the client answers. -/
theorem explain_never_mutates (budget : Nat) (stmt : Explainable) (counter : Nat) :
    (executeExplained budget stmt counter).Always Effect.quiet :=
  (explains_executeExplained budget stmt counter).mono fun _ => quiet_of_explains

end DdbShell
