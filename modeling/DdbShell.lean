import DdbShell.Lib.Infix
import DdbShell.Lib.Lexing
import DdbShell.Lib.Maps
import DdbShell.Lib.LR
import DdbShell.Lib.Program
import DdbShell.Lib.Contract
import DdbShell.Lib.Machine
import DdbShell.Lib.Sweep
import DdbShell.Lib.Placeholder
import DdbShell.Lib.Slots
import DdbShell.Lib.Words
import DdbShell.Value
import DdbShell.Expressions.SymbolTable
import DdbShell.Expressions.LogicalExpression
import DdbShell.TableSchema
import DdbShell.Parser.WhereGrammar
import DdbShell.Parser.GrownTree
import DdbShell.Parser.WhereMeaning
import DdbShell.Parser.StatementGrammar
import DdbShell.Lib.Flex
import DdbShell.Parser.Lexer
import DdbShell.Parser.Literal
import DdbShell.Connection.Literal
import DdbShell.Connection.Prepared
import DdbShell.Connection.Seams
import DdbShell.Connection.Noninterference
import DdbShell.Parser.Batch
import DdbShell.Expressions.Render
import DdbShell.Expressions.Where
import DdbShell.Expressions.Tokens
import DdbShell.Expressions.PartMeaning
import DdbShell.Expressions.Spine
import DdbShell.Expressions.Residual
import DdbShell.Expressions.Atoms
import DdbShell.Service
import DdbShell.Client
import DdbShell.Commands
import DdbShell.Calls
import DdbShell.Testing.MemoryClient
import DdbShell.Connection.Results
import DdbShell.Connection.Cursor
import DdbShell.Render.Renderer
import DdbShell.Cli.Repl
import DdbShell.Planner.SelectPlanner
import DdbShell.Execute.Requests
import DdbShell.Testing.MemoryTables
import DdbShell.Execute.DataExecutors
import DdbShell.Execute.TransactExecutor
import DdbShell.Execute.Describe
import DdbShell.Execute.TableExecutors
import DdbShell.Execute.Lookups
import DdbShell.Execute.ExplainSafe
import DdbShell.Execute.KeyReferences
import DdbShell.Testing.KeyConditionWords
import DdbShell.Planner.GetItem
import DdbShell.Planner.QuerySplit
import DdbShell.Planner.QueryLegality
import DdbShell.Planner.QueryPlan
import DdbShell.Execute.SingleWrite
import DdbShell.Execute.UpdateGuard
import DdbShell.Execute.BulkWrite
import DdbShell.Execute.Accounting
import DdbShell.Execute.BulkOnce
import DdbShell.Execute.AllOrNothing
import DdbShell.Execute.ExplainShows
import DdbShell.Expressions.ExpressionGrammar
import DdbShell.Expressions.Aliases
import DdbShell.Expressions.PathText
import DdbShell.Expressions.AliasLaws
import DdbShell.Execute.AliasExact
import DdbShell.Planner.AccessPath
import DdbShell.Planner.Reordering
import DdbShell.Planner.Respelling
import DdbShell.Expressions.ConditionText
import DdbShell.Expressions.ScanFilter
import DdbShell.Execute.UpdateText
import DdbShell.Execute.WellFormed
import DdbShell.Planner.RespelledRequests
import DdbShell.Execute.ConditionCheck
import DdbShell.Lib.Frames
import DdbShell.Testing.MemoryAddressing
import DdbShell.Cli.RunSource
import DdbShell.Cli.Batching
import DdbShell.Connection.RenderAll
import DdbShell.Execute.RateLimiter
import DdbShell.Execute.Throttle
import DdbShell.Execute.ExistenceCheck
import DdbShell.Execute.NeverCreates
import DdbShell.Execute.NumbersCarried
import DdbShell.Execute.SelectPaging
import DdbShell.Connection.Flattening
import DdbShell.Connection.Template
import DdbShell.Connection.Scanning
import DdbShell.Connection.Binding
import DdbShell.Connection.Query
import DdbShell.Lib.Lines
import DdbShell.Parser.Diagnostics
import DdbShell.Parser.CaretPlacement
import DdbShell.Reordered
import DdbShell.Render.RenderOrder
import DdbShell.Lib.Base64
import DdbShell.Lib.SortedMap
import DdbShell.Aws.SdkValue
import DdbShell.Aws.RoundTrip
import DdbShell.Aws.Conveys
import DdbShell.Execute.InsertItems
import DdbShell.Testing.KeyConditionDecoding
import DdbShell.Testing.UpdateWords
import DdbShell.Testing.UpdateFrame
import DdbShell.Lib.Automaton
import DdbShell.Lib.Follow
import DdbShell.Lib.Complete
import DdbShell.Lib.Obedient
import DdbShell.Lib.Halting
import DdbShell.Parser.Halting
import DdbShell.Parser.Automaton
import DdbShell.Parser.Complete
import DdbShell.Parser.Concatenation
import DdbShell.Parser.Obedience
import DdbShell.Lib.Parses
import DdbShell.Parser.Statements
import DdbShell.Parser.Actions
import DdbShell.Parser.Reading
import DdbShell.Parser.WhereParses
import DdbShell.Parser.ScriptParses
import DdbShell.Parser.WhereRead
import DdbShell.Parser.StatementConditions
import DdbShell.Parser.TransactConditions
import DdbShell.Execute.ShowCreateTable
import DdbShell.Execute.DdlRoundTrip
import DdbShell.Parser.IncludeLists
import DdbShell.Parser.UnquotedNames
import DdbShell.Execute.DdlUnquoted
import DdbShell.Execute.Privileges
import DdbShell.Execute.RequestBound
import DdbShell.Execute.ShowCommands
import DdbShell.Session
import DdbShell.Testing.SessionFrame
import DdbShell.Testing.SessionIsolation
