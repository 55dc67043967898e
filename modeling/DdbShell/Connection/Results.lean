import DdbShell.Calls
import DdbShell.Lib.Machine

/-!
The cursor over the results of a batch. Statements are executed lazily, one
when the result sets of the one before are used up; an outcome is flattened to
result sets, and a set of rows is read row by row.

The session is taken as any function that executes a statement, emitting
outcomes until it ends or fails, and the batch as any list of statements with
the error that ended its parse.
-/

namespace DdbShell

/-! ### Result sets -/

inductive ResultKind where
  | rows
  | status
  | write
  | report
  | explain
  | empty
  deriving DecidableEq, Repr

structure ResultSetData where
  kind : ResultKind := .empty
  rows : List ItemRow := []
  /-- parallel to `rows` after a vector search, else empty -/
  scores : List Double := []
  cc : Option ConsumedCapacity := none
  status : String := ""
  diagnostics : List String := []
  read : Nat := 0
  modified : Nat := 0
  ccf : Nat := 0
  verb : WriteVerb := .update
  lines : List String := []
  explainBlocks : List ExplainBlock := []
  renderSource : ExecOutcome := .empty

/-- One status set per written row. -/
def writeSets : List String → List (Option ItemRow) → List ResultSetData
  | [], _ => []
  | token :: tokens, items =>
      { kind := .status, status := token, renderSource := .write [token] items.head?.toList } ::
        writeSets tokens items.tail

mutual

def flatten : ExecOutcome → List ResultSetData
  | .status token diagnostics =>
      [{ kind := .status, status := token, diagnostics := diagnostics,
         renderSource := .status token diagnostics }]
  | .report lines => [{ kind := .report, lines := lines, renderSource := .report lines }]
  | .empty => [{}]
  | .select items cc =>
      [{ kind := .rows, rows := items, cc := cc, renderSource := .select items cc }]
  | .vectorSearch rows capacity =>
      [{ kind := .rows
         rows := rows.map fun row => row.item
         scores := rows.map fun row => row.score
         renderSource := .vectorSearch rows capacity }]
  | .write tokens items => writeSets tokens items
  | .bulkWrite b =>
      [{ kind := .write, read := b.read, modified := b.modified, ccf := b.ccf, verb := b.verb,
         cc := b.consumedCapacity, renderSource := .bulkWrite b }]
  | .transact token diagnostics =>
      [{ kind := .status, status := token, diagnostics := diagnostics,
         renderSource := .transact token diagnostics }]
  | .transactRead items =>
      [{ kind := .rows, rows := items, renderSource := .transactRead items }]
  | .explain blocks trailingStatus =>
      [{ kind := .explain, explainBlocks := blocks,
         renderSource := .explain blocks trailingStatus }]
  | .multi parts => flattenParts parts

def flattenParts : List ExecOutcome → List ResultSetData
  | [] => []
  | part :: parts => flatten part ++ flattenParts parts

end

/-- `Session::execute` buffers what a statement emits into one outcome, and
drops it if the statement fails. -/
def buffered (parts : List ExecOutcome) : Except Error Unit → Except Error ExecOutcome
  | .error e => .error e
  | .ok () =>
      match parts with
      | [] => .ok .empty
      | [part] => .ok part
      | parts => .ok (.multi parts)

def sessionExecute {Statement σ : Type}
    (stream : σ → Statement → (List ExecOutcome × Except Error Unit) × σ) (s : σ)
    (stmt : Statement) : Except Error ExecOutcome × σ :=
  let ((parts, result), s') := stream s stmt
  (buffered parts result, s')

/-! ### The cursor -/

structure Results (Statement : Type) where
  statements : List Statement
  parseError : Option Error := none
  /-- `none` before the first statement -/
  stmtIndex : Option Nat := none
  loaded : Bool := false
  done : Bool := false
  sets : List ResultSetData := []
  setIndex : Nat := 0
  error : Option Error := none
  rowIndex : Int := -1
  currentRow : ItemRow := {}

namespace Results

variable {Statement σ : Type}

def resetRowCursor (r : Results Statement) : Results Statement :=
  { r with rowIndex := -1, currentRow := {} }

def current (r : Results Statement) : Option ResultSetData :=
  if r.loaded then r.sets[r.setIndex]? else none

def nextIndex (r : Results Statement) : Nat :=
  match r.stmtIndex with
  | none => 0
  | some i => i + 1

/-- All statements have been executed. -/
def exhausted (r : Results Statement) : Results Statement :=
  { r with
    done := true, loaded := false, sets := []
    error := if r.parseError.isSome && r.error.isNone then r.parseError else r.error }

/-- The statement at the next index failed. -/
def failed (r : Results Statement) (e : Error) : Results Statement :=
  { r with stmtIndex := some r.nextIndex, error := some e, done := true, loaded := false,
           sets := [] }

/-- The statement at the next index gave an outcome. -/
def load (r : Results Statement) (outcome : ExecOutcome) : Results Statement :=
  { r with stmtIndex := some r.nextIndex, sets := flatten outcome, setIndex := 0,
           loaded := true }.resetRowCursor

section Session

variable (execute : σ → Statement → Except Error ExecOutcome × σ)

/-- A statement without result sets is passed over. -/
def advanceStatement (s : σ) (r : Results Statement) : Bool × Results Statement × σ :=
  if r.done then (false, r, s)
  else
    match _hstmt : r.statements[r.nextIndex]? with
    | none => (false, r.exhausted, s)
    | some stmt =>
        match execute s stmt with
        | (.error e, s') => (false, r.failed e, s')
        | (.ok outcome, s') =>
            if (flatten outcome).isEmpty then advanceStatement s' (r.load outcome)
            else (true, r.load outcome, s')
termination_by r.statements.length - r.nextIndex
decreasing_by
  have hlt : r.nextIndex < r.statements.length := (List.getElem?_eq_some_iff.mp _hstmt).1
  show r.statements.length - (r.nextIndex + 1) < r.statements.length - r.nextIndex
  omega

section Advance

variable {execute : σ → Statement → Except Error ExecOutcome × σ} {s s' : σ}
  {r : Results Statement}

theorem advanceStatement_exhausted (hdone : r.done = false)
    (hstmt : r.statements[r.nextIndex]? = none) :
    advanceStatement execute s r = (false, r.exhausted, s) := by
  rw [advanceStatement, hdone, if_neg Bool.false_ne_true]
  split
  · rfl
  · next stmt h =>
      rw [hstmt] at h
      cases h

theorem advanceStatement_failed {stmt : Statement} {e : Error} (hdone : r.done = false)
    (hstmt : r.statements[r.nextIndex]? = some stmt) (hexecute : execute s stmt = (.error e, s')) :
    advanceStatement execute s r = (false, r.failed e, s') := by
  rw [advanceStatement, hdone, if_neg Bool.false_ne_true]
  split
  · next h =>
      rw [hstmt] at h
      cases h
  · next stmt' h =>
      rw [hstmt] at h
      cases h
      rw [hexecute]

theorem advanceStatement_loaded {stmt : Statement} {outcome : ExecOutcome} (hdone : r.done = false)
    (hstmt : r.statements[r.nextIndex]? = some stmt)
    (hexecute : execute s stmt = (.ok outcome, s')) :
    advanceStatement execute s r =
      if (flatten outcome).isEmpty then advanceStatement execute s' (r.load outcome)
      else (true, r.load outcome, s') := by
  rw [advanceStatement, hdone, if_neg Bool.false_ne_true]
  split
  · next h =>
      rw [hstmt] at h
      cases h
  · next stmt' h =>
      rw [hstmt] at h
      cases h
      rw [hexecute]

end Advance

/-- The first statement is executed when the results are made. -/
def prime (s : σ) (r : Results Statement) : Results Statement × σ :=
  (advanceStatement execute s r).2

def nextResult (s : σ) (r : Results Statement) : Bool × Results Statement × σ :=
  if r.done then (false, r, s)
  else if r.loaded && r.setIndex + 1 < r.sets.length then
    (true, { r with setIndex := r.setIndex + 1 }.resetRowCursor, s)
  else advanceStatement execute s r

def nextRow (r : Results Statement) : Bool × Results Statement :=
  match r.current with
  | none => (false, r)
  | some set =>
      if set.kind ≠ .rows then (false, r)
      else
        let next := r.rowIndex + 1
        if next < 0 then (false, r)
        else
          match set.rows[next.toNat]? with
          | none => (false, r)
          | some row => (true, { r with rowIndex := next, currentRow := row })

def score (r : Results Statement) : Double :=
  match r.current with
  | none => 0.0
  | some set => if r.rowIndex < 0 then 0.0 else set.scores[r.rowIndex.toNat]?.getD 0.0

/-- What is rendered for the current set. -/
def renderSource (r : Results Statement) : Option ExecOutcome :=
  r.current.map fun set => set.renderSource

end Session

end Results

/-- A parsed batch: its statements and the error that ended it. -/
structure ParsedBatch (Statement : Type) where
  statements : List Statement := []
  error : Option Error := none

/-- `Connection::exec` of an open connection. A parse error on the first
statement gives no results. -/
def connectionExec {Statement σ : Type} (parseBatch : String → ParsedBatch Statement)
    (execute : σ → Statement → Except Error ExecOutcome × σ) (s : σ) (sql : String) :
    Except Error (Results Statement × σ) :=
  let batch := parseBatch sql
  match batch.statements, batch.error with
  | [], some e => .error e
  | statements, parseError =>
      .ok (Results.prime execute s { statements := statements, parseError := parseError })

end DdbShell
