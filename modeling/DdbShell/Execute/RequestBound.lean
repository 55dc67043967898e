import DdbShell.Execute.Privileges

/-!
How much a statement sends. A transaction is one request, INSERT puts each of
its rows once, and a statement about a table or a backup changes the service by
one request; a SELECT changes nothing. The bound is on every run, whatever the
client answers.
-/

namespace DdbShell

open Exec

/-- The requests that are counted: what changes something, and the reads of a
transaction. -/
def Effect.sent : Effect → Nat
  | .client (.transactGetItems _) => 1
  | .client call => call.mutating.toNat
  | .emit _ => 0

/-- The most requests that a statement sends, where it is known before the
service has answered: what UPDATE and DELETE send depends on the items read. -/
def Explainable.mostSent : Explainable → Option Nat
  | .select _ | .describe _ | .describeBackup _ => some 0
  | .insert cmd => some cmd.rows.length
  | .update _ | .delete _ => none
  | .transact _ | .dropTable _ | .createTable _ | .alterTable _ | .alterTtl _ | .alterPitr _
  | .alterReplica _ | .createBackup _ | .dropBackup _ | .restore _ => some 1

namespace Exec

variable {α β : Type} {m n : Nat}

/-- From every counter, no more than this many requests. -/
def Sends (n : Nat) (x : Exec α) : Prop := ∀ counter, (x counter).AtMost Effect.sent n

theorem Sends.bind {x : Exec α} {f : α → Exec β} (hx : Sends m x) (hf : ∀ a, Sends n (f a)) :
    Sends (m + n) (x >>= f) := by
  intro counter
  refine Program.AtMost.bind (hx counter) ?_
  rintro ⟨ending, counter⟩
  cases ending with
  | ok a => exact hf a counter
  | error e => trivial
  | cut => trivial

/-- An effect that is not counted. -/
def Unsent (op : Effect) : Prop := op.sent = 0

theorem Always.sends {x : Exec α} (hx : Always Unsent x) (n : Nat) : Sends n x :=
  fun counter => Program.Always.atMost (hx counter) n

theorem unsent_describeTable (table : String) : Unsent (.client (.describeTable table)) := rfl

theorem unsent_emit (outcome : ExecOutcome) : Unsent (.emit outcome) := rfl

theorem sends_attempt {c : ClientCall} (h : (Effect.client c).sent ≤ 1) : Sends 1 (attempt c) :=
  fun _ => ⟨0, h, fun _ => trivial⟩

theorem sends_call {c : ClientCall} (h : (Effect.client c).sent ≤ 1) : Sends 1 (call c) := by
  refine (sends_attempt h).bind fun answer => Always.sends ?_ 0
  cases answer with
  | ok out => exact always_pure out
  | error e => exact always_throw e

theorem sends_emitSingle {x : Exec ExecOutcome} (hx : Sends n x) : Sends n (emitSingle x) :=
  hx.bind fun _ => (always_emit (unsent_emit _)).sends 0

/-- The one request of a statement, and what is made of its answer. -/
theorem sends_single {c : ClientCall} (h : (Effect.client c).sent ≤ 1)
    (outcome : c.Out → ExecOutcome) :
    Sends 1 (emitSingle (call c >>= fun out => pure (outcome out))) :=
  sends_emitSingle ((sends_call h).bind fun _ => (always_pure _).sends 0)

end Exec

/-! ### The executors -/

/-- What a SELECT is permitted is no request that is counted. -/
theorem unsent_of_select {cmd : SelectCmd} {op : Effect} (h : op.within (.select cmd)) :
    Unsent op := by
  cases op with
  | emit outcome => rfl
  | client call => cases call <;> first | rfl | exact h.elim

theorem unsent_of_describe {cmd : DescribeCmd} {op : Effect} (h : op.within (.describe cmd)) :
    Unsent op := by
  cases op with
  | emit outcome => rfl
  | client call => cases call <;> first | rfl | exact h.elim

theorem sends_insertRows (cmd : InsertCmd) (pk : String) (rows : List (List Value)) :
    Sends rows.length (insertRows cmd pk rows) := by
  induction rows with
  | nil => exact (always_pure _).sends 0
  | cons row rows ih =>
      have hrow : Sends (0 + (1 + (0 + rows.length))) (insertRows cmd pk (row :: rows)) :=
        ((always_makePutRequest cmd pk row).sends 0).bind fun _ =>
          (sends_call le_rfl).bind fun _ => ((always_emit (unsent_emit _)).sends 0).bind fun _ => ih
      rw [List.length_cons]
      convert hrow using 1
      omega

theorem sends_executeInsert (cmd : InsertCmd) :
    Sends cmd.rows.length (executeInsertStreaming cmd) := by
  have hpk : Always Unsent (insertPartitionKey cmd) :=
    always_insertPartitionKey (unsent_describeTable _)
  have hrun := (hpk.sends 0).bind fun pk => sends_insertRows cmd pk cmd.rows
  rwa [Nat.zero_add] at hrun

theorem sends_sendTransaction {c : ClientCall} (h : (Effect.client c).sent ≤ 1) :
    Sends 1 (sendTransaction (attempt c)) := by
  refine (sends_attempt h).bind fun answer => Always.sends ?_ 0
  cases answer with
  | ok out => exact always_pure out
  | error e => exact (always_emit (unsent_emit _)).bind fun _ => always_throw e

/-- The inner statements only describe their tables; the one request is sent
after them all. -/
theorem sends_executeTransact (cmd : TransactCmd) : Sends 1 (executeTransact cmd false) := by
  unfold executeTransact
  split
  · exact (always_emit (unsent_emit _)).sends 1
  · split
    · have hitems : Always Unsent (buildItems buildReadItem { aborted := cmd.rollback }
          cmd.items) :=
        always_buildItems
          (fun b _ _ => always_buildReadItem (fun _ _ => unsent_describeTable _) b) _
      refine (hitems.sends 0).bind (n := 1) fun b => ?_
      split
      · exact (always_emit (unsent_emit _)).sends 1
      · exact (sends_sendTransaction le_rfl).bind fun _ => (always_emit (unsent_emit _)).sends 0
    · have hitems : Always Unsent (buildItems buildWriteItem { aborted := cmd.rollback }
          cmd.items) :=
        always_buildItems
          (fun b _ _ => always_buildWriteItem (fun _ _ => unsent_describeTable _) b) _
      refine (hitems.sends 0).bind (n := 1) fun b => ?_
      split
      · exact (always_emit (unsent_emit _)).sends 1
      · exact (sends_sendTransaction le_rfl).bind fun _ => (always_emit (unsent_emit _)).sends 0

theorem sends_executeDropTable (cmd : DropTableCmd) : Sends 1 (executeDropTable cmd) := by
  have hprobe : Always Unsent (dropProbe cmd) := by
    unfold dropProbe
    split
    · exact (always_attempt (unsent_describeTable _)).bind fun _ => always_pure _
    · exact always_pure _
  refine (hprobe.sends 0).bind (n := 1) fun found => ?_
  split
  · refine (sends_call le_rfl).bind fun _ => Always.sends ?_ 0
    have hwait : Always Unsent (call (.waitForTableGone cmd.table)) := always_call rfl
    split
    · exact hwait.bind fun _ => always_pure _
    · exact (always_pure _).bind fun _ => always_pure _
  · exact (always_pure _).sends 1

theorem sends_executeCreateTable (cmd : CreateTableCmd) : Sends 1 (executeCreateTable cmd) := by
  have hprobe : Always Unsent (createProbe cmd) := by
    unfold createProbe
    split
    · exact (always_attempt (unsent_describeTable _)).bind fun _ => always_pure _
    · exact always_pure _
  refine ((always_ofExcept _).sends 0).bind (n := 1) fun _ => ?_
  refine (hprobe.sends 0).bind (n := 1) fun found => ?_
  split
  · exact (always_pure _).sends 1
  · refine (sends_call le_rfl).bind fun _ => Always.sends ?_ 0
    have hwait : Always Unsent (call (.waitForTableActive cmd.tableName)) := always_call rfl
    split
    · exact hwait.bind fun _ => always_pure _
    · exact (always_pure _).bind fun _ => always_pure _

theorem sends_executeAlterTable (cmd : AlterTableCmd) : Sends 1 (executeAlterTable cmd) :=
  ((always_ofExcept _).sends 0).bind fun _ =>
    (sends_call le_rfl).bind fun _ => (always_pure _).sends 0

/-- The probe of the setting is no change. -/
theorem sends_executeAlterTtl (cmd : AlterTtlCmd) : Sends 1 (executeAlterTtl cmd false) := by
  have hprobe : Always Unsent (call (.describeTimeToLive cmd.table)) := always_call rfl
  refine (hprobe.sends 0).bind (n := 1) fun probe => ?_
  split
  · exact (always_pure _).sends 1
  · exact (sends_call le_rfl).bind fun _ => (always_pure _).sends 0

theorem sends_executeRestore (cmd : RestoreCmd) : Sends 1 (executeRestore cmd false) := by
  unfold executeRestore
  split
  · exact (sends_call le_rfl).bind fun _ => (always_pure _).sends 0
  · exact (sends_call le_rfl).bind fun _ => (always_pure _).sends 0

/-! ### Statements -/

theorem sends_executePlain (budget : Nat) {statement : Explainable} {n : Nat}
    (hmost : statement.mostSent = some n) : Sends n (executePlain budget statement) := by
  cases statement with
  | select cmd =>
      cases hmost
      exact ((within_executePlain budget (.select cmd)).mono fun _ => unsent_of_select).sends 0
  | insert cmd =>
      cases hmost
      exact sends_executeInsert cmd
  | update cmd => cases hmost
  | delete cmd => cases hmost
  | transact cmd =>
      cases hmost
      exact sends_executeTransact cmd
  | dropTable cmd =>
      cases hmost
      exact sends_emitSingle (sends_executeDropTable cmd)
  | describe cmd =>
      cases hmost
      exact ((within_executePlain budget (.describe cmd)).mono fun _ => unsent_of_describe).sends 0
  | createTable cmd =>
      cases hmost
      exact sends_emitSingle (sends_executeCreateTable cmd)
  | alterTable cmd =>
      cases hmost
      exact sends_emitSingle (sends_executeAlterTable cmd)
  | alterTtl cmd =>
      cases hmost
      exact sends_emitSingle (sends_executeAlterTtl cmd)
  | alterPitr cmd =>
      cases hmost
      exact sends_single le_rfl _
  | alterReplica cmd =>
      cases hmost
      exact sends_single le_rfl _
  | createBackup cmd =>
      cases hmost
      exact sends_single le_rfl _
  | dropBackup cmd =>
      cases hmost
      exact sends_single le_rfl _
  | describeBackup cmd =>
      cases hmost
      have hcall : Always Unsent (call (.describeBackup cmd.backupArn)) := always_call rfl
      exact sends_emitSingle ((hcall.bind fun _ => always_pure _).sends 0)
  | restore cmd =>
      cases hmost
      exact sends_emitSingle (sends_executeRestore cmd)

/-- A statement calls the service only within what it is permitted, and sends
no more than its requests, against any client, in any state of it and from any
alias counter. -/
theorem plain_within (budget : Nat) (statement : Explainable) {σ : Type}
    (reply : σ → (op : Effect) → op.Answer × σ) (counter : Nat) (s : σ) :
    let events := (Exec.play reply (executePlain budget statement) counter s).1
    (∀ event ∈ events, event.op.within statement) ∧
      ∀ n, statement.mostSent = some n → (events.map fun event => event.op.sent).sum ≤ n := by
  have hplay := Program.runs_runWith reply (executePlain budget statement counter) s
  refine ⟨(within_executePlain budget statement counter).runs hplay, fun n hmost => ?_⟩
  exact (sends_executePlain budget hmost counter).runs hplay

/-- A client that refuses every call. -/
def refusingReply (s : Unit) : (op : Effect) → op.Answer × Unit
  | .client _ => (.error ⟨.serviceError, "throttled"⟩, s)
  | .emit _ => ((), s)

theorem plain_within_transaction :
    let cmd : TransactCmd := {
      access := .write
      items := [.select { table := "books" }, .delete { table := "loans" }] }
    let events := (Exec.play refusingReply (executeTransact cmd false) 0 ()).1
    (∀ event ∈ events, event.op.within (.transact cmd)) ∧
      (events.map fun event => event.op.sent).sum ≤ 1 := by
  intro cmd
  obtain ⟨hwithin, hmost⟩ := plain_within 1 (.transact cmd) refusingReply 0 ()
  exact ⟨hwithin, hmost 1 rfl⟩

end DdbShell
