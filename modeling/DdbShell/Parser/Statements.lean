import DdbShell.Commands
import DdbShell.Execute.RateLimiter

/-!
What a statement is parsed to: the commands that EXPLAIN takes, and those it
does not.
-/

namespace DdbShell

inductive HelpTopic where
  | general
  | explain
  | begin
  | commit
  | rollback
  | connect
  | drop
  | dropTable
  | dropBackup
  | describe
  | describeBackup
  | show
  | showTables
  | showLimits
  | showBackups
  | showVersion
  | showCreateTable
  | create
  | createTable
  | alterTable
  | backup
  | restore
  | select
  | insert
  | replace
  | update
  | upsert
  | delete
  deriving DecidableEq, Repr

structure ConnectCmd where
  region : String
  endpoint : String := ""
  deriving DecidableEq, Repr

structure ShowTablesCmd where
  brief : Bool := false
  like : String := ""
  deriving DecidableEq, Repr

structure ShowBackupsCmd where
  backupType : String := ""
  table : String := ""
  deriving DecidableEq, Repr

structure ShowCreateTableCmd where
  ifNotExists : Bool := false
  nowait : Bool := false
  table : String
  deriving DecidableEq, Repr

/-- What a statement is parsed to. A SELECT with a semantic error is `empty`. -/
inductive CommandNode where
  | empty
  | quit
  | showVersion
  | help (topic : HelpTopic)
  | connect (cmd : ConnectCmd)
  | showTables (cmd : ShowTablesCmd)
  | showBackups (cmd : ShowBackupsCmd)
  | showLimits
  | showCreateTable (cmd : ShowCreateTableCmd)
  | explainable (cmd : Explainable)

structure ParsedStatement where
  command : CommandNode
  explain : Bool := false

structure TableReference where
  table : String
  index : Option String := none
  deriving DecidableEq, Repr

/-- The node of a transaction for a command inside it. -/
def CommandNode.transactItem : CommandNode → TransactItem
  | .explainable (.select cmd) => .select cmd
  | .explainable (.insert cmd) => .insert cmd
  | .explainable (.update cmd) => .update cmd
  | .explainable (.delete cmd) => .delete cmd
  | _ => .placeholder

end DdbShell
