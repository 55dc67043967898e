import DdbShell.Render.Renderer

/-!
The driver of the command line. Lines are gathered to a batch until a line is
the terminator, a batch goes to the session statement by statement, and what
the statements emit is printed as it comes. The session is any that parses a
batch and executes a statement; what the source prints is its console.
-/

namespace DdbShell

/-! ### Lines -/

def isWs (c : Char) : Bool := [' ', '\t', '\r', '\n', Char.ofNat 12, Char.ofNat 11].contains c

def trim (s : String) : String :=
  String.ofList ((s.toList.dropWhile isWs).reverse.dropWhile isWs).reverse

def asciiLower (c : Char) : Char :=
  if 'A' ≤ c ∧ c ≤ 'Z' then Char.ofNat (c.toNat - 'A'.toNat + 'a'.toNat) else c

def iequals (a b : String) : Bool := a.toList.map asciiLower = b.toList.map asciiLower

/-- Take off one pair of equal quotes. -/
def stripQuotes (s : String) : String :=
  match s.toList with
  | first :: second :: rest =>
      if (first = '"' ∨ first = '\'') ∧ (second :: rest).getLast? = some first then
        String.ofList (second :: rest).dropLast
      else s
  | _ => s

structure Terminator where
  blankLine : Bool := false
  word : String := "go"
  deriving DecidableEq, Repr

def isTerminatorLine (trimmed : String) (term : Terminator) : Bool :=
  if term.blankLine then trimmed = "" else trimmed ≠ "" && iequals trimmed term.word

def isGapChar (c : Char) : Bool := c = ' ' || c = '\t'

/-- The next word and what is after it. -/
def nextToken (text : List Char) : List Char × List Char :=
  (text.dropWhile isGapChar).span fun c => !isGapChar c

/-- The terminator that a `set terminator` line sets, or `none` for any other
line. Without a value it is the blank line. -/
def trySetTerminatorDirective (trimmed : String) : Option Terminator :=
  let (first, rest) := nextToken trimmed.toList
  let (second, rest) := nextToken rest
  if !iequals (String.ofList first) "set" then none
  else if !iequals (String.ofList second) "terminator" then none
  else
    let value := stripQuotes (trim (String.ofList rest))
    if value = "" then some { blankLine := true, word := "" }
    else some { blankLine := false, word := value }

/-! ### A batch -/

/-- A session, from the state it is in to the one after. -/
structure Engine (Statement σ : Type) where
  parseBatch : String → ParsedBatch Statement
  /-- with what is emitted on the way -/
  execute : σ → Statement → (List ExecOutcome × Except Error Unit) × σ
  isQuit : Statement → Bool

/-- Stream an executor's outcomes from a client: those that are emitted, the
error that stops it, of which a run that is cut has none, and the counter and
the client after it. -/
def Exec.stream {σ : Type} (reply : σ → (op : Effect) → op.Answer × σ) (x : Exec Unit)
    (counter : Nat) (s : σ) : (List ExecOutcome × Except Error Unit) × Nat × σ :=
  let (events, (ending, counter), s) := Exec.play reply x counter s
  let emitted := events.filterMap fun event =>
    match event.op with
    | .emit outcome => some outcome
    | .client _ => none
  match ending with
  | .error e => ((emitted, .error e), counter, s)
  | .ok () | .cut => ((emitted, .ok ()), counter, s)

structure Console where
  stdout : String := ""
  stderr : String := ""
  deriving DecidableEq, Repr

structure Shell (σ : Type) where
  session : σ
  console : Console := {}

structure BatchStatus where
  quit : Bool := false
  aborted : Bool := false
  /-- of the last statement executed -/
  lastError : Option Bool := none
  deriving DecidableEq, Repr

/-- The shell is to stop. -/
def BatchStatus.stops (status : BatchStatus) : Bool := status.quit || status.aborted

section Batch

variable {Statement σ : Type} (doubleText : Double → String) (engine : Engine Statement σ)

/-- Both texts go through `fputs`, which stops at a NUL. -/
def Console.emit (console : Console) (fragment : ExecOutcome) : Console :=
  { stdout := console.stdout ++ cString (Renderer.render doubleText fragment)
    stderr := console.stderr ++ cString (Renderer.renderStderr fragment) }

def Console.reportError (console : Console) (e : Error) : Console :=
  { console with stderr := console.stderr ++ cString (Renderer.renderError e) }

/-- Execute the statements in order, up to one that ends the batch. -/
def runStatements (abortOnError : Bool) :
    List Statement → BatchStatus → Shell σ → BatchStatus × Shell σ
  | [], status, shell => (status, shell)
  | stmt :: rest, status, shell =>
      let ((fragments, outcome), session) := engine.execute shell.session stmt
      let console := fragments.foldl (Console.emit doubleText) shell.console
      match outcome with
      | .error e =>
          let shell := { session := session, console := console.reportError e }
          if abortOnError then ({ status with lastError := some true, aborted := true }, shell)
          else runStatements abortOnError rest { status with lastError := some true } shell
      | .ok () =>
          let shell := { session := session, console := console }
          if engine.isQuit stmt then ({ status with lastError := some false, quit := true }, shell)
          else runStatements abortOnError rest { status with lastError := some false } shell

/-- A parse error is printed behind the statements before it and counts for
nothing. -/
def runBatchText (abortOnError : Bool) (text : String) (shell : Shell σ) :
    BatchStatus × Shell σ :=
  let batch := engine.parseBatch text
  let (status, shell) := runStatements doubleText engine abortOnError batch.statements {} shell
  if status.stops then (status, shell)
  else
    match batch.error with
    | some e => (status, { shell with console := shell.console.reportError e })
    | none => (status, shell)

end Batch

/-! ### The loop over the input -/

/-- What the loop does to the outside, in order. -/
inductive ReplEvent where
  | read (line : String)
  | ran (text : String) (status : BatchStatus)
  deriving DecidableEq, Repr

structure SourceState (σ : Type) where
  buffer : String := ""
  lastError : Option Bool := none
  term : Terminator
  shell : Shell σ

structure SourceRun (σ : Type) where
  events : List ReplEvent
  code : Int
  final : SourceState σ

def SourceRun.after {σ : Type} (event : ReplEvent) (run : SourceRun σ) : SourceRun σ :=
  { run with events := event :: run.events }

namespace SourceState

variable {σ : Type} (st : SourceState σ)

def exitCode : Int := if st.lastError.getD false then 1 else 0

/-- The loop ends here. -/
def finish : SourceRun σ := ⟨[], st.exitCode, st⟩

/-- The batch in the buffer goes to the engine. -/
def ranBuffer (runBatch : String → Shell σ → BatchStatus × Shell σ) :
    BatchStatus × SourceState σ :=
  let (status, shell) := runBatch st.buffer st.shell
  (status, { st with
    buffer := ""
    lastError := if status.lastError.isSome then status.lastError else st.lastError
    shell := shell })

/-- A content line is appended. -/
def append (line : String) : SourceState σ :=
  { st with buffer := (if st.buffer = "" then "" else st.buffer ++ "\n") ++ line }

end SourceState

/-- `run_source` over the lines its source has. The directive is looked for
only while the buffer is empty, and an empty buffer is no batch. -/
def runSource {σ : Type} (runBatch : String → Shell σ → BatchStatus × Shell σ) :
    List String → SourceState σ → SourceRun σ
  | [], st =>
      -- the end of the input ends the batch
      if st.buffer = "" then st.finish
      else
        let (status, st') := st.ranBuffer runBatch
        st'.finish.after (.ran st.buffer status)
  | line :: rest, st =>
      match (if st.buffer = "" then trySetTerminatorDirective (trim line) else none) with
      | some term => (runSource runBatch rest { st with term := term }).after (.read line)
      | none =>
          if isTerminatorLine (trim line) st.term then
            if st.buffer = "" then (runSource runBatch rest st).after (.read line)
            else
              let (status, st') := st.ranBuffer runBatch
              if status.stops then (st'.finish.after (.ran st.buffer status)).after (.read line)
              else ((runSource runBatch rest st').after (.ran st.buffer status)).after (.read line)
          else (runSource runBatch rest (st.append line)).after (.read line)

end DdbShell
