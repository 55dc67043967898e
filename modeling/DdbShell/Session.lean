import DdbShell.Cli.Repl
import DdbShell.Execute.ExplainSafe
import DdbShell.Execute.ShowCommands
import DdbShell.Execute.ShowCreateTable

/-!
The session: every statement that is parsed, executed against the client. It
carries the region and the endpoint, which CONNECT changes, and the counter of
the alias prefixes. The texts of HELP and the version are the build's.
-/

namespace DdbShell

open Exec

structure SessionConfig where
  region : String := ""
  endpoint : String := ""
  deriving DecidableEq, Repr

/-- What a session has from elsewhere. -/
structure SessionEnv where
  helpText : HelpTopic → String
  version : String
  patterns : LikePatterns

/-- The lines of a text; what follows its last line break is one if it is not
empty. -/
def helpLines (text : String) : List String :=
  let lines := text.toList.splitOn '\n'
  (lines.dropLast ++ (lines.getLast?.filter (· ≠ [])).toList).map String.ofList

/-! ### Statements -/

namespace CommandNode

def isQuit : CommandNode → Bool
  | .quit => true
  | _ => false

/-- CONNECT changes the configuration. -/
def configures (config : SessionConfig) : CommandNode → SessionConfig
  | .connect cmd => { region := cmd.region, endpoint := cmd.endpoint }
  | _ => config

end CommandNode

namespace Session

variable (env : SessionEnv) (budget : Nat)

/-- `Session::execute`. Whether the client could connect is not told. -/
def execute (config : SessionConfig) (statement : ParsedStatement) : Exec Unit :=
  match statement.command with
  | .empty => emit .empty
  | .showVersion => emit (.report ["ddbsh - version " ++ env.version])
  | .quit => emit (.status "QUIT" [])
  | .help topic => emit (.report (helpLines (env.helpText topic)))
  | .connect cmd => do
      let _ ← attempt (.connect cmd.region cmd.endpoint)
      emit (.status "CONNECT" [])
  | .showTables cmd => emitSingle (executeShowTables env.patterns cmd)
  | .showBackups cmd => emitSingle (executeShowBackups budget cmd)
  | .showLimits => emitSingle (executeShowLimits config.region)
  | .showCreateTable cmd => emitSingle (executeShowCreateTable cmd)
  | .explainable cmd =>
      if statement.explain then executeExplained budget cmd else executePlain budget cmd

end Session

structure SessionState (σ : Type) where
  config : SessionConfig := {}
  /-- `alias_prefix_counter` -/
  counter : Nat := 0
  client : σ

/-- A session on a client. -/
def Session.engine {σ : Type} (env : SessionEnv) (budget : Nat)
    (parseBatch : String → ParsedBatch ParsedStatement)
    (reply : σ → (op : Effect) → op.Answer × σ) : Engine ParsedStatement (SessionState σ) where
  parseBatch := parseBatch
  execute := fun s statement =>
    let (shown, counter, client) :=
      Exec.stream reply (Session.execute env budget s.config statement) s.counter s.client
    (shown, { config := statement.command.configures s.config, counter, client })
  isQuit := fun statement => statement.command.isQuit

/-! ### What a session asks of the client -/

/-- What a statement may do. The SHOW statements read, and go by the names that
are listed. -/
def Effect.ofStatement (statement : ParsedStatement) : Effect → Prop
  | .emit _ => True
  | .client call =>
      match statement.command with
      | .empty | .quit | .showVersion | .help _ => False
      | .connect cmd => call = .connect cmd.region cmd.endpoint
      | .showTables _ => call = .listTables ∨
          ∃ name, call = .describeTable name ∨ call = .describeTimeToLive name
      | .showBackups _ => ∃ request, call = .listBackups request
      | .showLimits => call = .describeLimits ∨ call = .listTables ∨
          ∃ name, call = .describeTable name
      | .showCreateTable cmd =>
          call = .describeTable cmd.table ∨ call = .describeTimeToLive cmd.table
      | .explainable cmd =>
          if statement.explain then (Effect.client call).explains cmd else cmd.permits call

section Shows

variable {P : Effect → Prop}

theorem always_executeShowTables (patterns : LikePatterns) (cmd : ShowTablesCmd)
    (hlist : P (.client .listTables)) (hdescribe : ∀ name, P (.client (.describeTable name)))
    (httl : ∀ name, P (.client (.describeTimeToLive name))) :
    Always P (executeShowTables patterns cmd) := by
  have hrows : ∀ names, Always P (showTableRows cmd.brief names) := by
    intro names
    induction names with
    | nil => exact always_pure _
    | cons name names ih =>
        refine Always.bind ?_ fun row => ih.bind fun _ => always_pure _
        unfold showTable
        split
        · exact always_pure _
        · refine (always_attempt (hdescribe name)).bind fun described => ?_
          cases described with
          | error e => exact always_pure _
          | ok td =>
              refine (always_attempt (httl name)).bind fun ttl => ?_
              cases ttl <;> exact always_pure _
  refine (always_ofExcept _).bind fun matcher => (always_call hlist).bind fun names => ?_
  exact (hrows _).bind fun _ => always_pure _

theorem always_executeShowBackups (budget : Nat) (cmd : ShowBackupsCmd)
    (hlist : ∀ request, P (.client (.listBackups request))) :
    Always P (executeShowBackups budget cmd) := by
  have hpages : ∀ request lines, Always P (showBackupsLoop budget request lines) := by
    induction budget with
    | zero => exact fun _ _ => always_cut
    | succ budget ih =>
        intro request lines
        refine (always_call (hlist request)).bind fun page => ?_
        dsimp only
        split
        · exact always_pure _
        · exact ih _ _
  exact (hpages _ _).bind fun _ => always_pure _

theorem always_executeShowLimits (region : String) (hlimits : P (.client .describeLimits))
    (hlist : P (.client .listTables)) (hdescribe : ∀ name, P (.client (.describeTable name))) :
    Always P (executeShowLimits region) := by
  have hsums : ∀ names sums, Always P (sumThroughput sums names) := by
    intro names
    induction names with
    | nil => exact fun _ => always_pure _
    | cons name names ih =>
        intro sums
        refine (always_attempt (hdescribe name)).bind fun described => ?_
        cases described with
        | ok td => exact ih _
        | error e => exact ih _
  refine (always_call hlimits).bind fun limits => (always_call hlist).bind fun names => ?_
  exact (hsums _ _).bind fun _ => always_pure _

theorem always_executeShowCreateTable {cmd : ShowCreateTableCmd}
    (hdescribe : P (.client (.describeTable cmd.table)))
    (httl : P (.client (.describeTimeToLive cmd.table))) :
    Always P (executeShowCreateTable cmd) := by
  refine (always_attempt hdescribe).bind fun described => ?_
  cases described with
  | error e => exact always_throw _
  | ok td =>
      dsimp only
      split
      · exact always_throw _
      · exact (always_attempt httl).bind fun _ => always_pure _

end Shows

/-- Whatever the client answers, a statement does only what it may. -/
theorem ofStatement_execute (env : SessionEnv) (budget : Nat) (config : SessionConfig)
    (statement : ParsedStatement) :
    Always (Effect.ofStatement statement) (Session.execute env budget config statement) := by
  obtain ⟨command, explain⟩ := statement
  have hemit : ∀ outcome, Always (Effect.ofStatement ⟨command, explain⟩) (emit outcome) :=
    fun outcome => always_emit trivial
  cases command with
  | empty => exact hemit _
  | quit => exact hemit _
  | showVersion => exact hemit _
  | help topic => exact hemit _
  | connect cmd =>
      have hconnect : (Effect.client (.connect cmd.region cmd.endpoint)).ofStatement
          ⟨.connect cmd, explain⟩ := rfl
      exact (always_attempt hconnect).bind fun _ => hemit _
  | showTables cmd =>
      refine (always_executeShowTables _ cmd (Or.inl rfl) (fun name => ?_) fun name => ?_).bind
        fun _ => hemit _
      · exact Or.inr ⟨name, .inl rfl⟩
      · exact Or.inr ⟨name, .inr rfl⟩
  | showBackups cmd =>
      refine (always_executeShowBackups budget cmd fun request => ?_).bind fun _ => hemit _
      change ∃ sent, ClientCall.listBackups request = .listBackups sent
      exact ⟨request, rfl⟩
  | showLimits =>
      refine (always_executeShowLimits _ (Or.inl rfl) (Or.inr (.inl rfl)) fun name => ?_).bind
        fun _ => hemit _
      exact Or.inr (.inr ⟨name, rfl⟩)
  | showCreateTable cmd =>
      exact (always_executeShowCreateTable (Or.inl rfl) (Or.inr rfl)).bind fun _ => hemit _
  | explainable cmd =>
      cases explain with
      | true =>
          refine (explains_executeExplained budget cmd).mono fun op hop => ?_
          cases op with
          | emit outcome => trivial
          | client call => exact hop
      | false =>
          refine (within_executePlain budget cmd).mono fun op hop => ?_
          cases op with
          | emit outcome => trivial
          | client call => exact hop

end DdbShell
