import DdbShell.Execute.Lookups
import DdbShell.Lib.Contract

/-!
What a statement may ask of the service. Each kind of statement reads and
writes by its own operations only, and on the tables that it names; inside a
transaction every entry of the one request comes from an inner statement of
its own kind. This holds of every run, whatever the client answers.
-/

namespace DdbShell

open Exec

/-! ### Contracts of executors -/

namespace Exec

variable {α β : Type} {P : Effect → Prop} {Q R : α → Prop}

/-- Every effect satisfies `P`, and every result that is no error `Q`. -/
def Ensures (P : Effect → Prop) (Q : α → Prop) (x : Exec α) : Prop :=
  ∀ counter, (x counter).Ensures P fun result => ∀ a, result.1 = .ok a → Q a

theorem ensures_pure {a : α} (h : Q a) : Ensures P Q (pure a : Exec α) := by
  intro counter a' ha
  cases ha
  exact h

theorem ensures_throw (e : Error) : Ensures P Q (throw e : Exec α) := by
  intro counter a ha
  cases ha

theorem Ensures.bind {x : Exec α} {f : α → Exec β} {S : β → Prop} (hx : Ensures P Q x)
    (hf : ∀ a, Q a → Ensures P S (f a)) : Ensures P S (x >>= f) := by
  intro counter
  refine Program.Ensures.bind (hx counter) ?_
  rintro ⟨ending, counter⟩ hending
  cases ending with
  | ok a => exact hf a (hending a rfl) counter
  | error e =>
      intro a ha
      cases ha
  | cut =>
      intro a ha
      cases ha

theorem Ensures.always {x : Exec α} (h : Ensures P Q x) : Always P x :=
  fun counter => (h counter).always

theorem Always.ensures {x : Exec α} (h : Always P x) : Ensures P (fun _ => True) x :=
  fun counter => (h counter).ensures.mono fun _ _ _ _ => trivial

end Exec

/-! ### What is permitted -/

namespace TransactItem

/-- A read of the inner statement. -/
def reads : TransactItem → TransactGet → Prop
  | .select cmd, get => get.tableName = cmd.table
  | _, _ => False

/-- A write, or a check, of the inner statement. -/
def writes : TransactItem → TransactWriteItem → Prop
  | .insert cmd, .put entry => entry.tableName = cmd.tableName
  | .update cmd, .update entry => entry.tableName = cmd.table
  | .delete cmd, .delete entry => entry.tableName = cmd.table
  | .select cmd, .conditionCheck entry => entry.tableName = cmd.table
  | _, _ => False

end TransactItem

/-- The operations of a statement, with the tables it may use them on. -/
def Explainable.permits : Explainable → ClientCall → Prop
  | .select cmd, .describeTable table => table = cmd.table
  | .select cmd, .getItem request => request.tableName = cmd.table
  | .select cmd, .query request => request.tableName = cmd.table
  | .select cmd, .scan request => request.tableName = cmd.table
  | .select cmd, .searchVectors request => request.tableName = cmd.table
  | .insert cmd, .describeTable table => table = cmd.tableName
  | .insert cmd, .putItem request => request.tableName = cmd.tableName
  | .update cmd, .describeTable table => table = cmd.table
  | .update cmd, .query request => request.tableName = cmd.table
  | .update cmd, .scan request => request.tableName = cmd.table
  | .update cmd, .updateItem request => request.tableName = cmd.table
  | .delete cmd, .describeTable table => table = cmd.table
  | .delete cmd, .query request => request.tableName = cmd.table
  | .delete cmd, .scan request => request.tableName = cmd.table
  | .delete cmd, .deleteItem request => request.tableName = cmd.table
  | .transact cmd, .describeTable table => ∃ item ∈ cmd.items, item.table = some table
  | .transact cmd, .transactGetItems gets =>
      cmd.access = .read ∧ ∀ get ∈ gets, ∃ item ∈ cmd.items, item.reads get
  | .transact cmd, .transactWriteItems entries =>
      cmd.access = .write ∧ ∀ entry ∈ entries, ∃ item ∈ cmd.items, item.writes entry
  | .dropTable cmd, .describeTable table => table = cmd.table ∧ cmd.ifExists = true
  | .dropTable cmd, .deleteTable table => table = cmd.table
  | .dropTable cmd, .waitForTableGone table => table = cmd.table ∧ cmd.nowait = false
  | .describe cmd, .describeTable table => table = cmd.table
  | .describe cmd, .describeTimeToLive table => table = cmd.table
  | .describe cmd, .describeContinuousBackups table => table = cmd.table
  | .describe cmd, .describeTableReplicaAutoScaling table => table = cmd.table
  | .createTable cmd, .describeTable table => table = cmd.tableName ∧ cmd.ifNotExists = true
  | .createTable cmd, .createTable request => request.tableName = cmd.tableName
  | .createTable cmd, .waitForTableActive table => table = cmd.tableName ∧ cmd.nowait = false
  | .alterTable cmd, .updateTable request => request.tableName = cmd.table
  | .alterTtl cmd, .describeTimeToLive table => table = cmd.table
  | .alterTtl cmd, .updateTimeToLive request => request.tableName = cmd.table
  | .alterPitr cmd, .updateContinuousBackups request => request.tableName = cmd.table
  | .alterReplica cmd, .updateTable request => request.tableName = cmd.table
  | .createBackup cmd, .createBackup request => request.tableName = cmd.table
  | .dropBackup cmd, .deleteBackup backupArn => backupArn = cmd.backupArn
  | .describeBackup cmd, .describeBackup backupArn => backupArn = cmd.backupArn
  | .restore cmd, .restoreTableFromBackup request =>
      request.backupArn = cmd.source ∧ request.targetTableName = cmd.target
  | .restore cmd, .restoreTableToPointInTime request =>
      request.sourceTableName = cmd.source ∧ request.targetTableName = cmd.target
  | _, _ => False

/-- An effect within what the statement is permitted. -/
def Effect.within (statement : Explainable) : Effect → Prop
  | .client call => statement.permits call
  | .emit _ => True

variable {statement : Explainable}

theorem within_call {c : ClientCall} (h : statement.permits c) :
    Always (Effect.within statement) (call c) :=
  always_call h

theorem within_emit (outcome : ExecOutcome) :
    Always (Effect.within statement) (emit outcome) :=
  always_emit trivial

theorem within_emitSingle {x : Exec ExecOutcome} (hx : Always (Effect.within statement) x) :
    Always (Effect.within statement) (emitSingle x) :=
  hx.bind fun _ => within_emit _

/-! ### SELECT -/

/-- The table that a plan reads. -/
def SelectPlan.table : SelectPlan → String
  | .getItem request => request.tableName
  | .query request => request.tableName
  | .scan request => request.tableName
  | .searchVectors request => request.tableName

theorem planAccess_table (cmd : SelectCmd) (schema : ResolvedKeySchema) (st : SymbolTable) :
    (planAccess cmd schema st).1.table = cmd.table := by
  fun_cases planAccess cmd schema <;> rfl

theorem planSearchVectors_table {cmd : SelectCmd} {index aliasPrefix : String}
    {vi : VectorIndexSchema} {plan : SelectPlan}
    (h : planSearchVectors cmd index vi aliasPrefix = .ok plan) : plan.table = cmd.table := by
  unfold planSearchVectors at h
  cases hchecked : checkSearchVector cmd vi with
  | error e =>
      rw [hchecked] at h
      cases h
  | ok checked =>
      rw [hchecked] at h
      cases h
      rfl

theorem ensures_execPlanSelect {P : Effect → Prop} {cmd : SelectCmd}
    (h : P (.client (.describeTable cmd.table))) (aliasPrefix : String) :
    Ensures P (fun plan => plan.table = cmd.table) (execPlanSelect cmd aliasPrefix) := by
  refine (always_execVectorIndex h).ensures.bind fun vector _ => ?_
  cases vector with
  | some found =>
      dsimp only
      cases hplan : planSearchVectors cmd found.1 found.2 aliasPrefix with
      | error e => exact ensures_throw e
      | ok plan => exact ensures_pure (planSearchVectors_table hplan)
  | none =>
      dsimp only
      split
      · exact ensures_throw _
      · exact (always_resolveKeySchema h _).ensures.bind fun schema _ =>
          ensures_pure (planAccess_table cmd schema _)

/-! ### Pages -/

theorem within_writeOne {request : WriteTemplate}
    (hwrite : Always (Effect.within statement) (attemptWrite request)) (wantRv : Bool)
    (acct : BulkWriteOutcome) :
    Always (Effect.within statement) (writeOne request wantRv acct) := by
  refine hwrite.bind fun answer => ?_
  cases answer with
  | ok out => exact always_pure _
  | error e =>
      dsimp only
      split
      · exact always_pure _
      · exact always_throw e

theorem permitsPages_select (cmd : SelectCmd) :
    PermitsPages (Effect.within (.select cmd)) cmd.table := ⟨fun _ h => h, fun _ h => h⟩

theorem permitsPages_update (cmd : UpdateCmd) :
    PermitsPages (Effect.within (.update cmd)) cmd.table := ⟨fun _ h => h, fun _ h => h⟩

theorem permitsPages_delete (cmd : DeleteCmd) :
    PermitsPages (Effect.within (.delete cmd)) cmd.table := ⟨fun _ h => h, fun _ h => h⟩

section Pages

variable {table : String} (hpages : PermitsPages (Effect.within statement) table)

include hpages

theorem within_selectLoop (budget : Nat) {request : WriteReadPlan} (h : request.table = table)
    (items : List ItemRow) (total : Totalizer) :
    Always (Effect.within statement) (selectLoop budget request items total) := by
  induction budget generalizing request items total with
  | zero => exact always_cut
  | succ budget ih =>
      refine (always_readPage hpages h).bind fun page => ?_
      dsimp only
      split
      · exact always_pure _
      · exact ih ((request.startingAt_table _).trans h) _ _

/-- The page loop of a bulk write that is not explained. -/
theorem within_bulkLoop {template : WriteTemplate}
    (hwrite : ∀ key, Always (Effect.within statement) (attemptWrite (template.keyed key)))
    {read : WriteReadPlan} (h : read.table = table) (wantRv : Bool) (budget : Nat)
    (startKey : Option ValueMap) (blocks : List ExplainBlock) (acct : BulkWriteOutcome) :
    Always (Effect.within statement)
      (bulkLoop false false read template wantRv budget startKey blocks acct) := by
  have hitems : ∀ items acct,
      Always (Effect.within statement) (writeItems template wantRv acct items) := by
    intro items
    induction items with
    | nil => exact fun _ => always_pure _
    | cons item items ih =>
        exact fun acct => (within_writeOne (hwrite _) _ _).bind fun acct => ih acct
  induction budget generalizing startKey blocks acct with
  | zero => exact always_cut
  | succ budget ih =>
      refine (always_pure _).bind fun blocks => ?_
      refine (always_readPage hpages ((read.startingAt_table _).trans h)).bind fun page => ?_
      refine ((hitems _ _).bind fun _ => always_pure _).bind fun result => ?_
      dsimp only
      split
      · exact always_pure _
      · exact ih _ _ _

end Pages

theorem within_executeSelect (budget : Nat) (cmd : SelectCmd) (aliasPrefix : String) :
    Always (Effect.within (.select cmd)) (executeSelect budget cmd aliasPrefix) := by
  have hdescribe : (Effect.client (.describeTable cmd.table)).within (.select cmd) := rfl
  have hpages := permitsPages_select cmd
  have hplan := ensures_execPlanSelect hdescribe aliasPrefix
  refine Ensures.always (Q := fun _ => True) (hplan.bind fun plan htable => Always.ensures ?_)
  cases plan with
  | searchVectors request =>
      have hcall : (Explainable.select cmd).permits (.searchVectors request) := htable
      exact (within_call hcall).bind fun _ => always_pure _
  | getItem request =>
      have hcall : (Explainable.select cmd).permits (.getItem request) := htable
      exact (within_call hcall).bind fun _ => always_pure _
  | query request =>
      have hread : (WriteReadPlan.query request).table = cmd.table := htable
      exact (within_selectLoop hpages budget hread _ _).bind fun _ => always_pure _
  | scan request =>
      have hread : (WriteReadPlan.scan request).table = cmd.table := htable
      exact (within_selectLoop hpages budget hread _ _).bind fun _ => always_pure _

/-! ### INSERT and REPLACE -/

theorem ensures_makePutRequest {P : Effect → Prop} (cmd : InsertCmd) (pk : String)
    (row : List Value) :
    Ensures P (fun request => request.tableName = cmd.tableName) (makePutRequest cmd pk row) := by
  unfold makePutRequest
  split
  · exact always_nextPrefix.ensures.bind fun _ _ => ensures_pure rfl
  · exact ensures_pure rfl

theorem within_insertRows (cmd : InsertCmd) (pk : String) (rows : List (List Value)) :
    Always (Effect.within (.insert cmd)) (insertRows cmd pk rows) := by
  induction rows with
  | nil => exact always_pure _
  | cons row rows ih =>
      refine Ensures.always (Q := fun _ => True) ?_
      refine (ensures_makePutRequest cmd pk row).bind fun request hrequest => ?_
      have hcall : (Explainable.insert cmd).permits (.putItem request) := hrequest
      exact Always.ensures ((within_call hcall).bind fun _ => (within_emit _).bind fun _ => ih)

/-! ### UPDATE and DELETE -/

theorem within_executeOne {request : WriteTemplate}
    (hwrite : Always (Effect.within statement) (attemptWrite request)) (wantRv : Bool)
    (verb : WriteVerb) :
    Always (Effect.within statement) (executeOne false request wantRv verb) :=
  (within_writeOne hwrite _ _).bind fun _ => within_emit _

theorem within_executeUpdate (budget : Nat) (cmd : UpdateCmd) :
    Always (Effect.within (.update cmd)) (executeUpdate budget cmd false) := by
  have hdescribe : (Explainable.update cmd).permits (.describeTable cmd.table) := rfl
  refine (always_resolveKeySchema hdescribe _).bind fun base => always_nextPrefix.bind fun _ => ?_
  have hwrite : ∀ (st : SymbolTable) (key : ValueMap), Always (Effect.within (.update cmd))
      (attemptWrite ((WriteTemplate.update
        (makeUpdateRequest cmd (base.pk.headD "") (base.rk.headD "") st).1).keyed key)) :=
    fun _ _ => always_attempt (P := Effect.within (.update cmd)) rfl
  have hpages := permitsPages_update cmd
  dsimp only
  split
  · exact within_executeOne (hwrite _ _) _ _
  · refine (always_enumerationPlan hdescribe _ _ _).bind fun qplan =>
      always_nextPrefix.bind fun _ => ?_
    exact (within_bulkLoop hpages (hwrite _)
      (buildWriteRead_table _ _ _ _ _ _ _ _) _ _ _ _ _).bind fun _ => within_emit _

theorem within_executeDelete (budget : Nat) (cmd : DeleteCmd) :
    Always (Effect.within (.delete cmd)) (executeDelete budget cmd false) := by
  have hdescribe : (Explainable.delete cmd).permits (.describeTable cmd.table) := rfl
  refine (always_resolveKeySchema hdescribe _).bind fun base => always_nextPrefix.bind fun _ => ?_
  have hwrite : ∀ (st : SymbolTable) (key : ValueMap), Always (Effect.within (.delete cmd))
      (attemptWrite ((WriteTemplate.delete
        (makeDeleteRequest cmd (base.pk.headD "") (base.rk.headD "") st).1).keyed key)) :=
    fun _ _ => always_attempt (P := Effect.within (.delete cmd)) rfl
  have hpages := permitsPages_delete cmd
  dsimp only
  split
  · exact within_executeOne (hwrite _ _) _ _
  · refine (always_enumerationPlan hdescribe _ _ _).bind fun qplan =>
      always_nextPrefix.bind fun _ => (always_pure ([], true)).bind fun result => ?_
    split
    · exact (within_bulkLoop hpages (hwrite _)
        (buildWriteRead_table _ _ _ _ _ _ _ _) _ _ _ _ _).bind fun _ => within_emit _
    · exact within_emit _

/-! ### Transactions -/

section Entries

variable {α : Type} {P : Effect → Prop}

theorem ensures_minting {Q : α → Prop} {build : String → Except Error α}
    (h : ∀ aliasPrefix a, build aliasPrefix = .ok a → Q a) : Ensures P Q (minting build) := by
  intro counter
  unfold minting
  split
  · next a hbuild =>
      intro a' ha
      cases ha
      exact h _ a hbuild
  · intro a ha
    cases ha

theorem ensures_buildEntry {Q : α → Prop} {table : String}
    (hdescribe : P (.client (.describeTable table)))
    {build : DescribeTable → String → Except Error α}
    (h : ∀ describe aliasPrefix a, build describe aliasPrefix = .ok a → Q a) :
    Ensures P Q (buildEntry table build) :=
  (always_attempt hdescribe).ensures.bind fun _ _ => ensures_minting fun _ _ ha => h _ _ _ ha

theorem ensures_caught {Q : α → Prop} {x : Exec α} (hx : Ensures P Q x) :
    Ensures P (fun result => ∀ a, result = .ok a → Q a) (caught x) := by
  intro counter
  refine Program.Ensures.bind (hx counter) ?_
  rintro ⟨ending, counter⟩ hending
  cases ending with
  | ok a =>
      intro result hresult a' ha
      cases hresult
      cases ha
      exact hending a rfl
  | error e =>
      intro result hresult a' ha
      cases hresult
      cases ha
  | cut =>
      intro result hresult
      cases hresult

variable {E : α → Prop}

/-- Building one more statement keeps what holds of every entry. -/
theorem ensures_buildInto {b : Building α} (hb : ∀ entry ∈ b.entries, E entry)
    {entries : Exec (List α)} (h : Ensures P (fun new => ∀ entry ∈ new, E entry) entries) :
    Ensures P (fun b => ∀ entry ∈ b.entries, E entry) (buildInto b entries) := by
  refine (ensures_caught h).bind fun result hresult => ?_
  cases result with
  | ok new =>
      refine ensures_pure fun entry hentry => ?_
      rcases List.mem_append.mp hentry with hentry | hentry
      · exact hb entry hentry
      · exact hresult new rfl entry hentry
  | error e =>
      dsimp only
      unfold absorbOrPropagate
      split
      · exact ensures_pure hb
      · exact ensures_throw e

theorem ensures_buildItems {build : Building α → TransactItem → Exec (Building α)}
    {items : List TransactItem}
    (hbuild : ∀ b, (∀ entry ∈ b.entries, E entry) → ∀ item ∈ items,
      Ensures P (fun b => ∀ entry ∈ b.entries, E entry) (build b item))
    {b : Building α} (hb : ∀ entry ∈ b.entries, E entry) :
    Ensures P (fun b => ∀ entry ∈ b.entries, E entry) (buildItems build b items) := by
  induction items generalizing b with
  | nil => exact ensures_pure hb
  | cons item items ih =>
      refine (hbuild b hb item List.mem_cons_self).bind fun b hb => ?_
      exact ih (fun b hb item hitem => hbuild b hb item (List.mem_cons_of_mem _ hitem)) hb

end Entries

section Tables

variable {describe : DescribeTable} {aliasPrefix : String}

theorem buildTransactGet_table {cmd : SelectCmd} {get : TransactGet}
    (h : buildTransactGet cmd describe aliasPrefix = .ok get) : get.tableName = cmd.table := by
  obtain ⟨schema, -, h⟩ := bind_eq_ok h
  cases hcondition : cmd.condition with
  | none =>
      rw [hcondition] at h
      cases h
  | some w =>
      rw [hcondition] at h
      dsimp only at h
      split at h
      · cases h
      · cases h
        rfl

theorem buildTransactUpdate_table {cmd : UpdateCmd} {entry : TransactUpdate}
    (h : buildTransactUpdate cmd describe aliasPrefix = .ok entry) :
    entry.tableName = cmd.table := by
  obtain ⟨schema, -, h⟩ := bind_eq_ok h
  cases hcondition : cmd.condition with
  | none =>
      rw [hcondition] at h
      cases h
  | some w =>
      rw [hcondition] at h
      dsimp only at h
      split at h
      · cases h
      · cases h
        rfl

theorem buildTransactDelete_table {cmd : DeleteCmd} {entry : TransactDelete}
    (h : buildTransactDelete cmd describe aliasPrefix = .ok entry) :
    entry.tableName = cmd.table := by
  obtain ⟨schema, -, h⟩ := bind_eq_ok h
  cases hcondition : cmd.condition with
  | none =>
      rw [hcondition] at h
      cases h
  | some w =>
      rw [hcondition] at h
      dsimp only at h
      split at h
      · cases h
      · cases h
        rfl

theorem buildTransactConditionCheck_table {cmd : SelectCmd} {entry : TransactConditionCheck}
    (h : buildTransactConditionCheck cmd describe aliasPrefix = .ok entry) :
    entry.tableName = cmd.table := by
  unfold buildTransactConditionCheck at h
  cases hmode : existsFunction cmd.existsMode with
  | none =>
      rw [hmode] at h
      cases h
  | some checkFunc =>
      rw [hmode] at h
      obtain ⟨schema, -, h⟩ := bind_eq_ok h
      cases hcondition : cmd.condition with
      | none =>
          rw [hcondition] at h
          cases h
      | some w =>
          rw [hcondition] at h
          cases h
          rfl

end Tables

theorem ensures_transactPuts {P : Effect → Prop} (cmd : InsertCmd) (pk : String)
    (rows : List (List Value)) :
    Ensures P (fun puts => ∀ put ∈ puts, put.tableName = cmd.tableName)
      (transactPuts cmd pk rows) := by
  induction rows with
  | nil => exact ensures_pure fun put hput => by cases hput
  | cons row rows ih =>
      refine (ensures_makePutRequest cmd pk row).bind fun request hrequest => ?_
      refine ih.bind fun puts hputs => ensures_pure fun put hput => ?_
      rcases List.mem_cons.mp hput with rfl | hput
      · exact hrequest
      · exact hputs put hput

section Items

variable {cmd : TransactCmd} {item : TransactItem} (hitem : item ∈ cmd.items)

include hitem

theorem permits_describe {table : String} (h : item.table = some table) :
    (Effect.client (.describeTable table)).within (.transact cmd) :=
  ⟨item, hitem, h⟩

/-- An inner statement adds reads of its own only. -/
theorem ensures_buildReadItem {b : Building TransactGet}
    (hb : ∀ get ∈ b.entries, ∃ item ∈ cmd.items, item.reads get) :
    Ensures (Effect.within (.transact cmd))
      (fun b => ∀ get ∈ b.entries, ∃ item ∈ cmd.items, item.reads get) (buildReadItem b item) := by
  cases item with
  | select select =>
      refine ensures_buildInto hb ?_
      have hget : Ensures (Effect.within (.transact cmd)) (fun get => get.tableName = select.table)
          (execTransactGet select) :=
        ensures_buildEntry (permits_describe hitem rfl) fun _ _ _ h => buildTransactGet_table h
      refine hget.bind fun get htable => ensures_pure fun entry hentry => ?_
      obtain rfl := List.mem_singleton.mp hentry
      exact ⟨_, hitem, htable⟩
  | insert insert => exact ensures_pure hb
  | update update => exact ensures_pure hb
  | delete delete => exact ensures_pure hb
  | placeholder => exact ensures_pure hb

/-- An inner statement adds writes and checks of its own only. -/
theorem ensures_buildWriteItem {b : Building TransactWriteItem}
    (hb : ∀ entry ∈ b.entries, ∃ item ∈ cmd.items, item.writes entry) :
    Ensures (Effect.within (.transact cmd))
      (fun b => ∀ entry ∈ b.entries, ∃ item ∈ cmd.items, item.writes entry)
      (buildWriteItem b item) := by
  cases item with
  | insert insert =>
      refine ensures_buildInto hb ?_
      have hpk := always_insertPartitionKey (permits_describe hitem rfl)
      have hputs : Ensures (Effect.within (.transact cmd))
          (fun puts => ∀ put ∈ puts, put.tableName = insert.tableName)
          (execTransactPuts insert) :=
        hpk.ensures.bind fun pk _ => ensures_transactPuts insert pk insert.rows
      refine hputs.bind fun puts htables => ensures_pure fun entry hentry => ?_
      obtain ⟨put, hput, rfl⟩ := List.mem_map.mp hentry
      exact ⟨_, hitem, htables put hput⟩
  | update update =>
      refine ensures_buildInto hb ?_
      have hentry : Ensures (Effect.within (.transact cmd))
          (fun entry => entry.tableName = update.table) (execTransactUpdate update) :=
        ensures_buildEntry (permits_describe hitem rfl) fun _ _ _ h => buildTransactUpdate_table h
      refine hentry.bind fun new htable => ensures_pure fun entry hentry => ?_
      obtain rfl := List.mem_singleton.mp hentry
      exact ⟨_, hitem, htable⟩
  | delete delete =>
      refine ensures_buildInto hb ?_
      have hentry : Ensures (Effect.within (.transact cmd))
          (fun entry => entry.tableName = delete.table) (execTransactDelete delete) :=
        ensures_buildEntry (permits_describe hitem rfl) fun _ _ _ h => buildTransactDelete_table h
      refine hentry.bind fun new htable => ensures_pure fun entry hentry => ?_
      obtain rfl := List.mem_singleton.mp hentry
      exact ⟨_, hitem, htable⟩
  | select select =>
      refine ensures_buildInto hb ?_
      have hentry : Ensures (Effect.within (.transact cmd))
          (fun entry => entry.tableName = select.table) (execTransactConditionCheck select) := by
        unfold execTransactConditionCheck
        split
        · exact ensures_throw _
        · exact ensures_buildEntry (permits_describe hitem rfl) fun _ _ _ h =>
            buildTransactConditionCheck_table h
      refine hentry.bind fun new htable => ensures_pure fun entry hentry => ?_
      obtain rfl := List.mem_singleton.mp hentry
      exact ⟨_, hitem, htable⟩
  | placeholder => exact ensures_pure hb

end Items

theorem within_sendTransaction {c : ClientCall} (h : statement.permits c) :
    Always (Effect.within statement) (sendTransaction (attempt c)) := by
  refine (always_attempt h).bind fun answer => ?_
  cases answer with
  | ok out => exact always_pure out
  | error e => exact (within_emit _).bind fun _ => always_throw e

theorem within_executeTransact (cmd : TransactCmd) :
    Always (Effect.within (.transact cmd)) (executeTransact cmd false) := by
  unfold executeTransact
  split
  · exact within_emit _
  · split
    · next haccess =>
        have hitems : Ensures (Effect.within (.transact cmd))
            (fun b => ∀ get ∈ b.entries, ∃ item ∈ cmd.items, item.reads get)
            (buildItems buildReadItem { aborted := cmd.rollback } cmd.items) :=
          ensures_buildItems (fun _ hb _ hitem => ensures_buildReadItem hitem hb) nofun
        refine Ensures.always (Q := fun _ => True) (hitems.bind fun b hb => Always.ensures ?_)
        have hcall : (Explainable.transact cmd).permits (.transactGetItems b.entries) :=
          ⟨haccess, hb⟩
        split
        · exact within_emit _
        · exact (within_sendTransaction hcall).bind fun _ => within_emit _
    · next haccess =>
        have hitems : Ensures (Effect.within (.transact cmd))
            (fun b => ∀ entry ∈ b.entries, ∃ item ∈ cmd.items, item.writes entry)
            (buildItems buildWriteItem { aborted := cmd.rollback } cmd.items) :=
          ensures_buildItems (fun _ hb _ hitem => ensures_buildWriteItem hitem hb) nofun
        refine Ensures.always (Q := fun _ => True) (hitems.bind fun b hb => Always.ensures ?_)
        have hcall : (Explainable.transact cmd).permits (.transactWriteItems b.entries) :=
          ⟨haccess, hb⟩
        split
        · exact within_emit _
        · exact (within_sendTransaction hcall).bind fun _ => within_emit _

/-! ### Tables -/

theorem within_executeDropTable (cmd : DropTableCmd) :
    Always (Effect.within (.dropTable cmd)) (executeDropTable cmd) := by
  have hprobe : Always (Effect.within (.dropTable cmd)) (dropProbe cmd) := by
    unfold dropProbe
    split
    · next hexists =>
        have hcall : (Explainable.dropTable cmd).permits (.describeTable cmd.table) :=
          ⟨rfl, hexists⟩
        exact (always_attempt hcall).bind fun _ => always_pure _
    · exact always_pure _
  have hdelete : (Explainable.dropTable cmd).permits (.deleteTable cmd.table) := rfl
  refine hprobe.bind fun found => ?_
  split
  · refine (within_call hdelete).bind fun _ => ?_
    cases hnowait : cmd.nowait with
    | false =>
        have hwait : (Explainable.dropTable cmd).permits (.waitForTableGone cmd.table) :=
          ⟨rfl, hnowait⟩
        exact (within_call hwait).bind fun _ => always_pure _
    | true => exact (always_pure _).bind fun _ => always_pure _
  · exact always_pure _

theorem within_executeCreateTable (cmd : CreateTableCmd) :
    Always (Effect.within (.createTable cmd)) (executeCreateTable cmd) := by
  have hprobe : Always (Effect.within (.createTable cmd)) (createProbe cmd) := by
    unfold createProbe
    split
    · next hexists =>
        have hcall : (Explainable.createTable cmd).permits (.describeTable cmd.tableName) :=
          ⟨rfl, hexists⟩
        exact (always_attempt hcall).bind fun _ => always_pure _
    · exact always_pure _
  have hcreate : (Explainable.createTable cmd).permits (.createTable (createTableRequest cmd)) :=
    rfl
  refine (always_ofExcept _).bind fun _ => hprobe.bind fun found => ?_
  split
  · exact always_pure _
  · refine (within_call hcreate).bind fun _ => ?_
    cases hnowait : cmd.nowait with
    | false =>
        have hwait : (Explainable.createTable cmd).permits (.waitForTableActive cmd.tableName) :=
          ⟨rfl, hnowait⟩
        exact (within_call hwait).bind fun _ => always_pure _
    | true => exact (always_pure _).bind fun _ => always_pure _

theorem within_executeAlterTtl (cmd : AlterTtlCmd) :
    Always (Effect.within (.alterTtl cmd)) (executeAlterTtl cmd false) := by
  have hprobe : (Explainable.alterTtl cmd).permits (.describeTimeToLive cmd.table) := rfl
  refine (within_call hprobe).bind fun probe => ?_
  split
  · exact always_pure _
  · have hcall : (Explainable.alterTtl cmd).permits (.updateTimeToLive {
        tableName := cmd.table
        enabled := cmd.enabled
        attributeName := if cmd.enabled then cmd.attr else probe.attributeName }) := rfl
    exact (within_call hcall).bind fun _ => always_pure _

theorem within_executeDescribe (cmd : DescribeCmd) :
    Always (Effect.within (.describe cmd)) (executeDescribe cmd) := by
  have hdescribe : (Explainable.describe cmd).permits (.describeTable cmd.table) := rfl
  have hattempt : ∀ {c : ClientCall}, (Explainable.describe cmd).permits c →
      Always (Effect.within (.describe cmd)) (attempt c) := fun h => always_attempt h
  refine (within_call hdescribe).bind fun td => ?_
  refine (hattempt (c := .describeTimeToLive cmd.table) rfl).bind fun _ => ?_
  refine (hattempt (c := .describeContinuousBackups cmd.table) rfl).bind fun pitr => ?_
  refine (hattempt (c := .describeTableReplicaAutoScaling cmd.table) rfl).bind fun scaling => ?_
  exact always_pure _

/-- The one call of a statement that makes no other. -/
theorem within_single {c : ClientCall} (h : statement.permits c) (outcome : c.Out → ExecOutcome) :
    Always (Effect.within statement) (emitSingle (call c >>= fun out => pure (outcome out))) :=
  within_emitSingle ((within_call h).bind fun _ => always_pure _)

theorem within_executeRestore (cmd : RestoreCmd) :
    Always (Effect.within (.restore cmd)) (executeRestore cmd false) := by
  unfold executeRestore
  split
  · have hcall : (Explainable.restore cmd).permits (.restoreTableFromBackup
        { targetTableName := cmd.target, backupArn := cmd.source }) := ⟨rfl, rfl⟩
    exact (within_call hcall).bind fun _ => always_pure _
  · have hcall : (Explainable.restore cmd).permits (.restoreTableToPointInTime
        { sourceTableName := cmd.source, targetTableName := cmd.target
          restoreDatetime := cmd.timestamp }) := ⟨rfl, rfl⟩
    exact (within_call hcall).bind fun _ => always_pure _

/-! ### Statements -/

theorem within_executePlain (budget : Nat) (statement : Explainable) :
    Always (Effect.within statement) (executePlain budget statement) := by
  cases statement with
  | select cmd =>
      exact always_nextPrefix.bind fun _ => within_emitSingle (within_executeSelect budget cmd _)
  | insert cmd =>
      have hdescribe : (Explainable.insert cmd).permits (.describeTable cmd.tableName) := rfl
      exact (always_insertPartitionKey hdescribe).bind fun pk => within_insertRows cmd pk cmd.rows
  | update cmd => exact within_executeUpdate budget cmd
  | delete cmd => exact within_executeDelete budget cmd
  | transact cmd => exact within_executeTransact cmd
  | dropTable cmd => exact within_emitSingle (within_executeDropTable cmd)
  | describe cmd => exact within_emitSingle (within_executeDescribe cmd)
  | createTable cmd => exact within_emitSingle (within_executeCreateTable cmd)
  | alterTable cmd =>
      have hcall : (Explainable.alterTable cmd).permits (.updateTable (alterTableRequest cmd)) :=
        rfl
      exact within_emitSingle ((always_ofExcept _).bind fun _ =>
        (within_call hcall).bind fun _ => always_pure _)
  | alterTtl cmd => exact within_emitSingle (within_executeAlterTtl cmd)
  | alterPitr cmd =>
      have hcall : (Explainable.alterPitr cmd).permits (.updateContinuousBackups
          { tableName := cmd.table, enabled := cmd.enabled }) := rfl
      exact within_single hcall _
  | alterReplica cmd =>
      have hcall : (Explainable.alterReplica cmd).permits (.updateTable
          { tableName := cmd.table, replica := some cmd.replica }) := rfl
      exact within_single hcall _
  | createBackup cmd =>
      have hcall : (Explainable.createBackup cmd).permits (.createBackup
          { tableName := cmd.table, backupName := cmd.backupName }) := rfl
      exact within_single hcall _
  | dropBackup cmd =>
      have hcall : (Explainable.dropBackup cmd).permits (.deleteBackup cmd.backupArn) := rfl
      exact within_single hcall _
  | describeBackup cmd =>
      have hcall : (Explainable.describeBackup cmd).permits (.describeBackup cmd.backupArn) := rfl
      exact within_single hcall _
  | restore cmd => exact within_emitSingle (within_executeRestore cmd)

end DdbShell
