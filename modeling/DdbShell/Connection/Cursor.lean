import DdbShell.Connection.Results

/-!
The lazy cursor behaves like one over the list of all result sets of the
batch, made in advance: it gives the same answers to every sequence of calls.
What the executions of the batch are is said once, by running its statements
in order up to the first that fails.
-/

namespace DdbShell

/-! ### The batch, executed eagerly -/

/-- A statement and what its execution gave. -/
abbrev Execution (Statement : Type) := Statement × Except Error ExecOutcome

namespace Execution

variable {Statement : Type}

def sets : Execution Statement → List ResultSetData
  | (_, .ok outcome) => flatten outcome
  | (_, .error _) => []

def error? : Execution Statement → Option Error
  | (_, .ok _) => none
  | (_, .error e) => some e

end Execution

section Batch

variable {Statement σ : Type} (execute : σ → Statement → Except Error ExecOutcome × σ)

/-- Execute statements in order, and none after one that fails. -/
def runBatch : σ → List Statement → List (Execution Statement)
  | _, [] => []
  | s, stmt :: rest =>
      match execute s stmt with
      | (.ok outcome, s') => (stmt, .ok outcome) :: runBatch s' rest
      | (.error e, _) => [(stmt, .error e)]

/-- The result sets of the executed statements. -/
def batchSets (s : σ) (statements : List Statement) : List ResultSetData :=
  (runBatch execute s statements).flatMap Execution.sets

/-- The error of the statement that failed, else that of the parse. -/
def batchError (s : σ) (batch : ParsedBatch Statement) : Option Error :=
  ((runBatch execute s batch.statements).findSome? Execution.error?).or batch.error

/-- The session, with a log of what it has executed. -/
def logging (s : σ × List (Execution Statement)) (stmt : Statement) :
    Except Error ExecOutcome × (σ × List (Execution Statement)) :=
  ((execute s.1 stmt).1, ((execute s.1 stmt).2, s.2 ++ [(stmt, (execute s.1 stmt).1)]))

end Batch

/-! ### Calls on the cursor -/

/-- The rows of a set, each with its score. -/
def ResultSetData.scoredRows (set : ResultSetData) : List (ItemRow × Double) :=
  if set.kind = .rows then set.rows.zipIdx.map fun (row, i) => (row, set.scores[i]?.getD 0.0)
  else []

inductive CursorCall where
  | nextResult
  | nextRow
  | render

/-- What a call tells: whether there is a next set and which is the current
one, the next row with its score if there is one, what is rendered. -/
inductive CursorAnswer where
  | result (moved : Bool) (current : Option ResultSetData)
  | row (next : Option (ItemRow × Double))
  | rendered (source : Option ExecOutcome)

/-- The cursor of the connection. -/
def lazyCursor {Statement σ : Type} (execute : σ → Statement → Except Error ExecOutcome × σ) :
    Machine CursorCall CursorAnswer (Results Statement × σ) where
  step
    | (r, s), .nextResult =>
        let (moved, r', s') := r.nextResult execute s
        (.result moved r'.current, (r', s'))
    | (r, s), .nextRow =>
        let (moved, r') := r.nextRow
        (.row (if moved then some (r'.currentRow, r'.score) else none), (r', s))
    | (r, s), .render => (.rendered r.renderSource, (r, s))

section Steps

variable {Statement σ : Type} (execute : σ → Statement → Except Error ExecOutcome × σ)
  (r : Results Statement) (s : σ)

theorem lazyCursor_nextResult : (lazyCursor execute).step (r, s) .nextResult =
    (.result (r.nextResult execute s).1 (r.nextResult execute s).2.1.current,
      (r.nextResult execute s).2) := rfl

theorem lazyCursor_nextRow : (lazyCursor execute).step (r, s) .nextRow =
    (.row (if r.nextRow.1 then some (r.nextRow.2.currentRow, r.nextRow.2.score) else none),
      (r.nextRow.2, s)) := rfl

theorem lazyCursor_render :
    (lazyCursor execute).step (r, s) .render = (.rendered r.renderSource, (r, s)) := rfl

end Steps

/-- A cursor over result sets that are there: the current one and those after
it, and the rows of the current one that are left. -/
structure EagerCursor where
  queue : List ResultSetData
  rows : List (ItemRow × Double)

namespace EagerCursor

/-- Positioned at the first set. -/
def ofSets (sets : List ResultSetData) : EagerCursor :=
  ⟨sets, (sets.head?.map ResultSetData.scoredRows).getD []⟩

def machine : Machine CursorCall CursorAnswer EagerCursor where
  step
    | e, .nextResult => (.result (!e.queue.tail.isEmpty) e.queue.tail.head?, ofSets e.queue.tail)
    | e, .nextRow => (.row e.rows.head?, { e with rows := e.rows.tail })
    | e, .render => (.rendered (e.queue.head?.map fun set => set.renderSource), e)

end EagerCursor

/-! ### Refinement -/

section Refinement

variable {Statement σ : Type} (execute : σ → Statement → Except Error ExecOutcome × σ)
  (batch : ParsedBatch Statement) (s₀ : σ)

/-- Some statements have been executed and the cursor stands at a set. -/
structure Running (r : Results Statement) (s : σ) (log : List (Execution Statement))
    (e : EagerCursor) : Prop where
  statements : r.statements = batch.statements
  parseError : r.parseError = batch.error
  done : r.done = false
  loaded : r.loaded = true
  error : r.error = none
  executed : log ++ runBatch execute s (batch.statements.drop r.nextIndex) =
    runBatch execute s₀ batch.statements
  clean : ∀ execution ∈ log, execution.error? = none
  row : -1 ≤ r.rowIndex
  set : ∃ set, r.sets[r.setIndex]? = some set ∧
    e.rows = set.scoredRows.drop (r.rowIndex + 1).toNat
  queue : e.queue = r.sets.drop r.setIndex ++
    batchSets execute s (batch.statements.drop r.nextIndex)

/-- Nothing is left to execute. -/
structure Ended (r : Results Statement) (log : List (Execution Statement)) (e : EagerCursor) :
    Prop where
  done : r.done = true
  loaded : r.loaded = false
  executed : log = runBatch execute s₀ batch.statements
  error : r.error = batchError execute s₀ batch
  queue : e = ⟨[], []⟩

/-- The lazy cursor and the eager one are at the same place. -/
def Tracks (state : Results Statement × (σ × List (Execution Statement))) (e : EagerCursor) :
    Prop :=
  Running execute batch s₀ state.1 state.2.1 state.2.2 e ∨
    Ended execute batch s₀ state.1 state.2.2 e

variable {execute batch s₀}

theorem drop_eq_cons_iff {α : Type} {xs rest : List α} {n : Nat} {x : α} :
    xs.drop n = x :: rest ↔ xs[n]? = some x ∧ xs.drop (n + 1) = rest := by
  constructor
  · intro h
    have hget : xs[n]? = some x := by
      rw [← List.head?_drop, h]
      rfl
    refine ⟨hget, ?_⟩
    rw [← List.tail_drop, h]
    rfl
  · rintro ⟨hget, rfl⟩
    obtain ⟨hlt, rfl⟩ := List.getElem?_eq_some_iff.mp hget
    exact List.drop_eq_getElem_cons hlt

theorem findSome?_error_none {log : List (Execution Statement)}
    (h : ∀ execution ∈ log, execution.error? = none) : log.findSome? Execution.error? = none :=
  List.findSome?_eq_none_iff.mpr h

/-- The next statement with a result set is found, or the batch ends. -/
theorem advance_tracks (remaining : List Statement) {r : Results Statement} {s : σ}
    {log : List (Execution Statement)} (hstatements : r.statements = batch.statements)
    (hparse : r.parseError = batch.error) (hdone : r.done = false) (herror : r.error = none)
    (hremaining : batch.statements.drop r.nextIndex = remaining)
    (hlog : log ++ runBatch execute s remaining = runBatch execute s₀ batch.statements)
    (hclean : ∀ execution ∈ log, execution.error? = none) :
    (r.advanceStatement (logging execute) (s, log)).1 =
        !(batchSets execute s remaining).isEmpty ∧
      (r.advanceStatement (logging execute) (s, log)).2.1.current =
        (batchSets execute s remaining).head? ∧
      Tracks execute batch s₀ (r.advanceStatement (logging execute) (s, log)).2
        (.ofSets (batchSets execute s remaining)) := by
  induction remaining generalizing r s log with
  | nil =>
      have hnone : r.statements[r.nextIndex]? = none := by
        rw [hstatements]
        exact List.getElem?_eq_none (List.drop_eq_nil_iff.mp hremaining)
      rw [Results.advanceStatement_exhausted hdone hnone]
      rw [runBatch, List.append_nil] at hlog
      refine ⟨rfl, rfl, .inr ⟨rfl, rfl, hlog, ?_, rfl⟩⟩
      rw [batchError, ← hlog, findSome?_error_none hclean, Option.none_or, ← hparse]
      simp only [Results.exhausted, herror, Option.isNone_none, Bool.and_true]
      cases r.parseError <;> rfl
  | cons stmt rest ih =>
      obtain ⟨hstmt, hrest⟩ := drop_eq_cons_iff.mp hremaining
      rw [← hstatements] at hstmt
      cases hexecute : execute s stmt with
      | mk result s' =>
          cases result with
          | error e =>
              have hlogged : logging execute (s, log) stmt =
                  (.error e, (s', log ++ [(stmt, .error e)])) := by
                rw [logging, hexecute]
              have hrun : runBatch execute s (stmt :: rest) = [(stmt, .error e)] := by
                rw [runBatch, hexecute]
              rw [Results.advanceStatement_failed hdone hstmt hlogged, batchSets, hrun]
              rw [hrun] at hlog
              refine ⟨rfl, rfl, .inr ⟨rfl, rfl, hlog, ?_, rfl⟩⟩
              rw [batchError, ← hlog, List.findSome?_append, findSome?_error_none hclean]
              rfl
          | ok outcome =>
              have hlogged : logging execute (s, log) stmt =
                  (.ok outcome, (s', log ++ [(stmt, .ok outcome)])) := by
                rw [logging, hexecute]
              have hrun : runBatch execute s (stmt :: rest) =
                  (stmt, .ok outcome) :: runBatch execute s' rest := by
                rw [runBatch, hexecute]
              have hsets : batchSets execute s (stmt :: rest) =
                  flatten outcome ++ batchSets execute s' rest := by
                rw [batchSets, hrun, List.flatMap_cons]
                rfl
              have hlog' : log ++ [(stmt, .ok outcome)] ++ runBatch execute s' rest =
                  runBatch execute s₀ batch.statements := by
                rw [← hlog, hrun, List.append_assoc]
                rfl
              have hclean' : ∀ execution ∈ log ++ [(stmt, .ok outcome)],
                  execution.error? = none := by
                intro execution hmem
                rcases List.mem_append.mp hmem with hmem | hmem
                · exact hclean execution hmem
                · rw [List.mem_singleton.mp hmem]
                  rfl
              rw [Results.advanceStatement_loaded hdone hstmt hlogged, hsets]
              cases hflat : flatten outcome with
              | nil =>
                  exact ih hstatements hparse hdone herror hrest hlog' hclean'
              | cons set more =>
                  have hload : (r.load outcome).sets = set :: more := hflat
                  refine ⟨rfl, ?_, .inl ?_⟩
                  · show (r.load outcome).sets[0]? = some set
                    rw [hload]
                    rfl
                  · refine ⟨hstatements, hparse, hdone, rfl, herror, ?_, hclean', Int.le_refl _,
                      ⟨set, ?_, rfl⟩, ?_⟩
                    · rw [← hlog', ← hrest]
                      rfl
                    · show (r.load outcome).sets[0]? = some set
                      rw [hload]
                      rfl
                    · rw [← hrest]
                      show set :: (more ++ _) = (r.load outcome).sets.drop 0 ++ _
                      rw [hload]
                      rfl

/-! ### The calls -/

theorem scoredRows_getElem? {set : ResultSetData} (hkind : set.kind = .rows) (n : Nat) :
    set.scoredRows[n]? = set.rows[n]?.map fun row => (row, set.scores[n]?.getD 0.0) := by
  rw [ResultSetData.scoredRows, if_pos hkind, List.getElem?_map, List.getElem?_zipIdx]
  cases set.rows[n]? <;> simp

/-- The next row of the current set, or none. -/
theorem nextRow_running {r : Results Statement} {s : σ} {log : List (Execution Statement)}
    {e : EagerCursor} (h : Running execute batch s₀ r s log e) :
    (if r.nextRow.1 then some (r.nextRow.2.currentRow, r.nextRow.2.score) else none) =
        e.rows.head? ∧
      Running execute batch s₀ r.nextRow.2 s log { e with rows := e.rows.tail } := by
  obtain ⟨set, hset, hrows⟩ := h.set
  have hcurrent : r.current = some set := by
    rw [Results.current, h.loaded, if_pos rfl, hset]
  have hnonneg : ¬ r.rowIndex + 1 < 0 := by
    have := h.row
    omega
  rw [hrows, List.head?_drop, List.tail_drop]
  by_cases hkind : set.kind = .rows
  · rw [scoredRows_getElem? hkind]
    cases hrow : set.rows[(r.rowIndex + 1).toNat]? with
    | none =>
        have hnext : r.nextRow = (false, r) := by
          simp [Results.nextRow, hcurrent, hkind, hnonneg, hrow]
        rw [hnext]
        refine ⟨rfl, ⟨h.statements, h.parseError, h.done, h.loaded, h.error, h.executed, h.clean,
          h.row, ⟨set, hset, ?_⟩, h.queue⟩⟩
        have hnone : set.scoredRows[(r.rowIndex + 1).toNat]? = none := by
          rw [scoredRows_getElem? hkind, hrow]
          rfl
        rw [List.getElem?_eq_none_iff] at hnone
        rw [List.drop_eq_nil_of_le hnone, List.drop_eq_nil_of_le (Nat.le_succ_of_le hnone)]
    | some row =>
        have hnext : r.nextRow =
            (true, { r with rowIndex := r.rowIndex + 1, currentRow := row }) := by
          simp [Results.nextRow, hcurrent, hkind, hnonneg, hrow]
        rw [hnext]
        have hcurrent' : ({ r with rowIndex := r.rowIndex + 1, currentRow := row } :
            Results Statement).current = some set := hcurrent
        refine ⟨?_, ⟨h.statements, h.parseError, h.done, h.loaded, h.error, h.executed, h.clean,
          by show -1 ≤ r.rowIndex + 1; omega, ⟨set, hset, ?_⟩, h.queue⟩⟩
        · simp [Results.score, hcurrent', hnonneg]
        · have hsucc : (r.rowIndex + 1 + 1).toNat = (r.rowIndex + 1).toNat + 1 := by
            have := h.row
            omega
          show set.scoredRows.drop _ = set.scoredRows.drop (r.rowIndex + 1 + 1).toNat
          rw [hsucc]
  · have hnext : r.nextRow = (false, r) := by
      simp [Results.nextRow, hcurrent, hkind]
    have hnone : set.scoredRows = [] := by
      rw [ResultSetData.scoredRows, if_neg hkind]
    rw [hnext]
    refine ⟨by rw [hnone]; rfl, ⟨h.statements, h.parseError, h.done, h.loaded, h.error, h.executed,
      h.clean, h.row, ⟨set, hset, ?_⟩, h.queue⟩⟩
    rw [hnone]
    simp

/-- The next set, from those at hand or from the next statement. -/
theorem nextResult_running {r : Results Statement} {s : σ} {log : List (Execution Statement)}
    {e : EagerCursor} (h : Running execute batch s₀ r s log e) :
    (r.nextResult (logging execute) (s, log)).1 = !e.queue.tail.isEmpty ∧
      (r.nextResult (logging execute) (s, log)).2.1.current = e.queue.tail.head? ∧
      Tracks execute batch s₀ (r.nextResult (logging execute) (s, log)).2
        (.ofSets e.queue.tail) := by
  obtain ⟨set, hset, -⟩ := h.set
  obtain ⟨hlt, -⟩ := List.getElem?_eq_some_iff.mp hset
  have htail : e.queue.tail = r.sets.drop (r.setIndex + 1) ++
      batchSets execute s (batch.statements.drop r.nextIndex) := by
    rw [h.queue, List.drop_eq_getElem_cons hlt]
    rfl
  by_cases hmore : r.setIndex + 1 < r.sets.length
  · have hnext : r.nextResult (logging execute) (s, log) =
        (true, { r with setIndex := r.setIndex + 1 }.resetRowCursor, (s, log)) := by
      simp [Results.nextResult, h.done, h.loaded, hmore]
    have hset' : r.sets[r.setIndex + 1]? = some r.sets[r.setIndex + 1] :=
      List.getElem?_eq_getElem hmore
    have htail' : e.queue.tail = r.sets[r.setIndex + 1] :: (r.sets.drop (r.setIndex + 1 + 1) ++
        batchSets execute s (batch.statements.drop r.nextIndex)) := by
      rw [htail, List.drop_eq_getElem_cons hmore]
      rfl
    rw [hnext, htail']
    refine ⟨rfl, ?_, .inl ⟨h.statements, h.parseError, h.done, h.loaded, h.error, h.executed,
      h.clean, Int.le_refl _, ⟨_, hset', rfl⟩, ?_⟩⟩
    · show (if r.loaded then r.sets[r.setIndex + 1]? else none) = _
      rw [h.loaded, if_pos rfl, hset']
      rfl
    · show _ = r.sets.drop (r.setIndex + 1) ++ _
      rw [List.drop_eq_getElem_cons hmore]
      rfl
  · have hnext : r.nextResult (logging execute) (s, log) =
        r.advanceStatement (logging execute) (s, log) := by
      simp [Results.nextResult, h.done, h.loaded, hmore]
    rw [hnext, htail, List.drop_eq_nil_of_le (Nat.le_of_not_lt hmore), List.nil_append]
    exact advance_tracks _ h.statements h.parseError h.done h.error rfl h.executed h.clean

/-- The lazy cursor gives the answers of the eager one. -/
theorem lazyCursor_refines :
    (lazyCursor (logging execute)).Refines EagerCursor.machine (Tracks execute batch s₀) := by
  rintro ⟨r, s, log⟩ e call (h | h)
  · dsimp only at h
    cases call with
    | nextResult =>
        obtain ⟨hmoved, hcurrent, htracks⟩ := nextResult_running h
        rw [lazyCursor_nextResult, hmoved, hcurrent]
        exact ⟨rfl, htracks⟩
    | nextRow =>
        obtain ⟨hrow, hrunning⟩ := nextRow_running h
        rw [lazyCursor_nextRow, hrow]
        exact ⟨rfl, .inl hrunning⟩
    | render =>
        obtain ⟨set, hset, -⟩ := h.set
        have hcurrent : r.current = some set := by
          rw [Results.current, h.loaded, if_pos rfl, hset]
        have hhead : e.queue.head? = some set := by
          rw [h.queue, List.head?_append, List.head?_drop, hset]
          rfl
        rw [lazyCursor_render, Results.renderSource, hcurrent, ← hhead]
        exact ⟨rfl, .inl h⟩
  · dsimp only at h
    obtain rfl := h.queue
    have hcurrent : r.current = none := by
      rw [Results.current, h.loaded]
      rfl
    cases call with
    | nextResult =>
        have hnext : r.nextResult (logging execute) (s, log) = (false, r, (s, log)) := by
          rw [Results.nextResult, h.done, if_pos rfl]
        rw [lazyCursor_nextResult, hnext, hcurrent]
        exact ⟨rfl, .inr h⟩
    | nextRow =>
        have hnext : r.nextRow = (false, r) := by
          rw [Results.nextRow, hcurrent]
        rw [lazyCursor_nextRow, hnext]
        exact ⟨rfl, .inr h⟩
    | render =>
        rw [lazyCursor_render, Results.renderSource, hcurrent]
        exact ⟨rfl, .inr h⟩

end Refinement

/-! ### Walking the results -/

/-- The calls that read all rows of every set: `next_row` until it is false,
then `next_result`. -/
def walkCalls (sets : List ResultSetData) : List CursorCall :=
  sets.flatMap fun set => List.replicate (set.scoredRows.length + 1) .nextRow ++ [.nextResult]

/-- Every row of every set once and in order, every set once and in order. -/
def walkAnswers : List ResultSetData → List CursorAnswer
  | [] => []
  | set :: rest =>
      set.scoredRows.map (fun row => .row (some row)) ++
        .row none :: .result (!rest.isEmpty) rest.head? :: walkAnswers rest

namespace EagerCursor

theorem run_nextRow (queue : List ResultSetData) (rows : List (ItemRow × Double)) :
    machine.run ⟨queue, rows⟩ (List.replicate (rows.length + 1) .nextRow) =
      (rows.map (fun row => .row (some row)) ++ [.row none], ⟨queue, []⟩) := by
  induction rows with
  | nil => rfl
  | cons row rows ih =>
      rw [List.length_cons, List.replicate_succ, Machine.run_cons]
      show (_ :: (machine.run ⟨queue, rows⟩ _).1, (machine.run ⟨queue, rows⟩ _).2) = _
      rw [ih]
      rfl

theorem run_walkCalls (sets : List ResultSetData) :
    (machine.run (ofSets sets) (walkCalls sets)).1 = walkAnswers sets := by
  induction sets with
  | nil => rfl
  | cons set rest ih =>
      have hrows : machine.run (ofSets (set :: rest))
          (List.replicate (set.scoredRows.length + 1) .nextRow) =
          (set.scoredRows.map (fun row => .row (some row)) ++ [.row none], ⟨set :: rest, []⟩) :=
        run_nextRow (set :: rest) set.scoredRows
      have hcalls : walkCalls (set :: rest) =
          List.replicate (set.scoredRows.length + 1) .nextRow ++
            (.nextResult :: walkCalls rest) := by
        rw [walkCalls, List.flatMap_cons, List.append_assoc]
        rfl
      have hnext : machine.step ⟨set :: rest, []⟩ .nextResult =
          (.result (!rest.isEmpty) rest.head?, ofSets rest) := rfl
      rw [hcalls, Machine.run_append, hrows, Machine.run_cons, hnext, ih, walkAnswers,
        List.append_assoc]
      rfl

end EagerCursor

/-! ### Every sequence of calls -/

section Faithful

variable {Statement σ : Type} (execute : σ → Statement → Except Error ExecOutcome × σ)
  (batch : ParsedBatch Statement) (s₀ : σ)

/-- What any sequence of calls on the results of a batch does and tells. -/
structure CursorFaithful (start : Results Statement × (σ × List (Execution Statement)))
    (calls : List CursorCall) : Prop where
  /-- statements are executed in batch order, each at most once -/
  in_order : ((lazyCursor (logging execute)).run start calls).2.2.2.map Prod.fst <+:
    batch.statements
  /-- and with the outcomes they have one after the other -/
  executed : ((lazyCursor (logging execute)).run start calls).2.2.2 <+:
    runBatch execute s₀ batch.statements
  stops : ∀ before execution after,
    ((lazyCursor (logging execute)).run start calls).2.2.2 = before ++ execution :: after →
      execution.error?.isSome = true → after = []
  /-- the results start at the first set of the batch -/
  first : start.1.current = (batchSets execute s₀ batch.statements).head?
  /-- the answers are those of a cursor over all sets of the batch -/
  answers : ((lazyCursor (logging execute)).run start calls).1 =
    (EagerCursor.machine.run (.ofSets (batchSets execute s₀ batch.statements)) calls).1
  /-- a full walk visits every set and every row -/
  walk : ((lazyCursor (logging execute)).run start
    (walkCalls (batchSets execute s₀ batch.statements))).1 =
      walkAnswers (batchSets execute s₀ batch.statements)
  /-- and the rows of a vector search come with their own scores -/
  scores : ∀ rows capacity, (flatten (.vectorSearch rows capacity)).map ResultSetData.scoredRows =
    [rows.map fun row => (row.item, row.score)]
  /-- once `next_result` was false it stays so, and nothing more is executed -/
  ended : (∃ current, .result false current ∈ ((lazyCursor (logging execute)).run start calls).1) →
    ((lazyCursor (logging execute)).run start calls).2.2.2 =
        runBatch execute s₀ batch.statements ∧
      (((lazyCursor (logging execute)).run start calls).2.1.error.isSome = true ↔
        (∃ execution ∈ ((lazyCursor (logging execute)).run start calls).2.2.2,
          execution.error?.isSome = true) ∨ batch.error.isSome = true) ∧
      ∀ more, ((lazyCursor (logging execute)).run start (calls ++ more)).2.2.2 =
          ((lazyCursor (logging execute)).run start calls).2.2.2 ∧
        ∀ moved current, .result moved current ∈
          ((lazyCursor (logging execute)).run
            ((lazyCursor (logging execute)).run start calls).2 more).1 → moved = false

variable {execute batch s₀}

theorem runBatch_in_order (s : σ) (statements : List Statement) :
    (runBatch execute s statements).map Prod.fst <+: statements := by
  induction statements generalizing s with
  | nil => exact List.prefix_rfl
  | cons stmt rest ih =>
      rw [runBatch]
      split
      · exact List.cons_prefix_cons.mpr ⟨rfl, ih _⟩
      · exact List.cons_prefix_cons.mpr ⟨rfl, List.nil_prefix⟩

theorem runBatch_stops {s : σ} {statements : List Statement}
    {before after : List (Execution Statement)} {execution : Execution Statement}
    (h : runBatch execute s statements = before ++ execution :: after)
    (hfailed : execution.error?.isSome = true) : after = [] := by
  induction statements generalizing s before with
  | nil =>
      rw [runBatch] at h
      exact absurd h.symm (List.append_ne_nil_of_right_ne_nil _ (List.cons_ne_nil _ _))
  | cons stmt rest ih =>
      rw [runBatch] at h
      split at h
      · cases before with
        | nil =>
            cases h
            cases hfailed
        | cons first before =>
            exact ih (List.cons.inj h).2
      · cases before with
        | nil => exact ((List.cons.inj h).2).symm
        | cons first before =>
            exact absurd (List.cons.inj h).2.symm
              (List.append_ne_nil_of_right_ne_nil _ (List.cons_ne_nil _ _))

theorem stops_of_prefix {log : List (Execution Statement)}
    (hlog : log <+: runBatch execute s₀ batch.statements)
    {before after : List (Execution Statement)} {execution : Execution Statement}
    (h : log = before ++ execution :: after) (hfailed : execution.error?.isSome = true) :
    after = [] := by
  obtain ⟨rest, hrest⟩ := hlog
  rw [h, List.append_assoc, List.cons_append] at hrest
  exact (List.append_eq_nil_iff.mp (runBatch_stops hrest.symm hfailed)).1

theorem Tracks.executed {state : Results Statement × (σ × List (Execution Statement))}
    {e : EagerCursor} (h : Tracks execute batch s₀ state e) :
    state.2.2 <+: runBatch execute s₀ batch.statements := by
  rcases h with h | h
  · exact ⟨_, h.executed⟩
  · exact ⟨[], by rw [h.executed, List.append_nil]⟩

/-- A cursor without a current set has come to the end. -/
theorem Tracks.ended {state : Results Statement × (σ × List (Execution Statement))}
    {e : EagerCursor} (h : Tracks execute batch s₀ state e) (hqueue : e.queue = []) :
    Ended execute batch s₀ state.1 state.2.2 e := by
  rcases h with h | h
  · obtain ⟨set, hset, -⟩ := h.set
    obtain ⟨hlt, -⟩ := List.getElem?_eq_some_iff.mp hset
    have hcons := h.queue
    rw [hqueue, List.drop_eq_getElem_cons hlt] at hcons
    cases hcons
  · exact h

theorem batchError_isSome :
    (batchError execute s₀ batch).isSome = true ↔
      (∃ execution ∈ runBatch execute s₀ batch.statements, execution.error?.isSome = true) ∨
        batch.error.isSome = true := by
  rw [batchError, Option.isSome_or, Bool.or_eq_true, List.findSome?_isSome_iff]

/-- After the end every call leaves the eager cursor at the end. -/
theorem EagerCursor.run_ended (calls : List CursorCall) :
    (machine.run ⟨[], []⟩ calls).2 = ⟨[], []⟩ ∧
      ∀ moved current, .result moved current ∈ (machine.run ⟨[], []⟩ calls).1 → moved = false := by
  induction calls with
  | nil => exact ⟨rfl, fun _ _ hmem => absurd hmem List.not_mem_nil⟩
  | cons call calls ih =>
      have hstep : (machine.step ⟨[], []⟩ call).2 = ⟨[], []⟩ := by cases call <;> rfl
      rw [Machine.run_cons, hstep]
      refine ⟨ih.1, ?_⟩
      intro moved current hmem
      rcases List.mem_cons.mp hmem with heq | hmem
      · cases call <;> cases heq
        rfl
      · exact ih.2 moved current hmem

/-- `next_result` is false at the end only. -/
theorem EagerCursor.ended_of_false {e : EagerCursor} {calls : List CursorCall}
    {current : Option ResultSetData} (h : .result false current ∈ (machine.run e calls).1) :
    (machine.run e calls).2 = ⟨[], []⟩ := by
  induction calls generalizing e with
  | nil => cases h
  | cons call calls ih =>
      rw [Machine.run_cons] at h ⊢
      rcases List.mem_cons.mp h with heq | hmem
      · have hstep : (machine.step e call).2 = ⟨[], []⟩ := by
          cases call with
          | nextResult =>
              have hempty : e.queue.tail = [] := by
                have hmoved := (CursorAnswer.result.inj heq).1
                simpa using hmoved.symm
              show ofSets e.queue.tail = _
              rw [hempty]
              rfl
          | nextRow => cases heq
          | render => cases heq
        rw [hstep]
        exact (run_ended calls).1
      · exact ih hmem

theorem scoredRows_vectorSearch (rows : List VectorSearchRow)
    (capacity : Option VectorConsumedCapacity) :
    (flatten (.vectorSearch rows capacity)).map ResultSetData.scoredRows =
      [rows.map fun row => (row.item, row.score)] := by
  have hrows (set : ResultSetData) (hkind : set.kind = .rows)
      (hrows : set.rows = rows.map fun row => row.item)
      (hscores : set.scores = rows.map fun row => row.score) :
      set.scoredRows = rows.map fun row => (row.item, row.score) := by
    refine List.ext_getElem? fun n => ?_
    rw [scoredRows_getElem? hkind, hrows, hscores, List.getElem?_map, List.getElem?_map,
      List.getElem?_map]
    cases rows[n]? <;> rfl
  rw [flatten, List.map_singleton, hrows _ rfl rfl rfl]

/-- A cursor that starts where the eager one does is faithful. -/
theorem cursorFaithful_of_tracks {start : Results Statement × (σ × List (Execution Statement))}
    (hfirst : start.1.current = (batchSets execute s₀ batch.statements).head?)
    (hstart : Tracks execute batch s₀ start (.ofSets (batchSets execute s₀ batch.statements)))
    (calls : List CursorCall) : CursorFaithful execute batch s₀ start calls := by
  have hrefines : (lazyCursor (logging execute)).Refines EagerCursor.machine
      (Tracks execute batch s₀) := lazyCursor_refines
  obtain ⟨hanswers, htracks⟩ := hrefines.run hstart calls
  refine ⟨?_, htracks.executed, ?_, hfirst, hanswers, ?_, scoredRows_vectorSearch, ?_⟩
  · exact (htracks.executed.map Prod.fst).trans (runBatch_in_order s₀ batch.statements)
  · intro before execution after
    exact stops_of_prefix htracks.executed
  · rw [(hrefines.run hstart _).1]
    exact EagerCursor.run_walkCalls _
  · rintro ⟨current, hfalse⟩
    rw [hanswers] at hfalse
    have hend := EagerCursor.ended_of_false hfalse
    rw [hend] at htracks
    have hended := htracks.ended rfl
    refine ⟨hended.executed, ?_, ?_⟩
    · rw [hended.error, batchError_isSome, ← hended.executed]
    · intro more
      obtain ⟨hanswers', htracks'⟩ := hrefines.run htracks more
      obtain ⟨hend', hresults⟩ := EagerCursor.run_ended more
      constructor
      · rw [hend'] at htracks'
        rw [Machine.run_append, hended.executed]
        exact (htracks'.ended rfl).executed
      · rw [hanswers']
        exact hresults

theorem prime_tracks (execute : σ → Statement → Except Error ExecOutcome × σ)
    (batch : ParsedBatch Statement) (s₀ : σ) :
    (Results.prime (logging execute) (s₀, [])
        { statements := batch.statements, parseError := batch.error }).1.current =
      (batchSets execute s₀ batch.statements).head? ∧
    Tracks execute batch s₀ (Results.prime (logging execute) (s₀, [])
        { statements := batch.statements, parseError := batch.error })
      (.ofSets (batchSets execute s₀ batch.statements)) :=
  (advance_tracks batch.statements rfl rfl rfl rfl rfl rfl fun _ hmem =>
    absurd hmem List.not_mem_nil).2

/-- The results of a batch, from `exec` on: faithful to the statements of the
batch run one after the other, for every sequence of calls. -/
theorem results_cursor_faithful (parseBatch : String → ParsedBatch Statement)
    (stream : σ → Statement → (List ExecOutcome × Except Error Unit) × σ) (s₀ : σ)
    (sql : String) (calls : List CursorCall) :
    match connectionExec parseBatch (logging (sessionExecute stream)) (s₀, []) sql with
    | .error e => (parseBatch sql).statements = [] ∧ (parseBatch sql).error = some e
    | .ok start => CursorFaithful (sessionExecute stream) (parseBatch sql) s₀ start calls := by
  unfold connectionExec
  cases hbatch : parseBatch sql with
  | mk statements error =>
      have hprime := prime_tracks (sessionExecute stream) ⟨statements, error⟩ s₀
      cases statements with
      | nil =>
          cases error with
          | some e => exact ⟨rfl, rfl⟩
          | none => exact cursorFaithful_of_tracks hprime.1 hprime.2 calls
      | cons stmt rest => exact cursorFaithful_of_tracks hprime.1 hprime.2 calls

end Faithful

end DdbShell
