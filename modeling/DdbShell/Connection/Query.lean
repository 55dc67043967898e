import DdbShell.Connection.RenderAll
import DdbShell.Execute.SelectPaging
import Mathlib.Data.List.ReduceOption

/-!
`Connection::query` reads the rows of the first result set of a batch and stops
there. What it takes for a query is a batch that begins to show rows; what it
is for is one statement that returns them.
-/

namespace DdbShell

def ResultKind.name : ResultKind → String
  | .status => "status"
  | .write => "write"
  | .report => "report"
  | .explain => "explain"
  | .empty => "empty"
  | .rows => "rows"

namespace Results

variable {Statement : Type}

def kind (r : Results Statement) : ResultKind := (r.current.map ResultSetData.kind).getD .empty

def rowCount (r : Results Statement) : Nat := (r.current.map fun set => set.rows.length).getD 0

/-- The loop over the rows of the current set. Each turn but the last reads one. -/
def readRows : Nat → Results Statement → List ItemRow × Results Statement
  | 0, r => ([], r)
  | turns + 1, r =>
      match r.nextRow with
      | (true, r') => (r'.currentRow :: (readRows turns r').1, (readRows turns r').2)
      | (false, r') => ([], r')

/-- What a query makes of results. -/
def rowSet (results : Results Statement) : Except Error (List ItemRow) :=
  if results.kind ≠ .rows then
    match results.error with
    | some e => .error e
    | none => .error ⟨.invalidArgument,
        "query() requires a row-returning statement; the result kind is " ++ results.kind.name⟩
  else
    let (rows, results) := results.readRows (results.rowCount + 1)
    match results.error with
    | some e => .error e
    | none => .ok rows

end Results

/-- `Session::execute` has the empty outcome for the empty statement. -/
def withEmpty {Command σ : Type} (stream : σ → Command → (List ExecOutcome × Except Error Unit) × σ)
    (s : σ) : Option Command → (List ExecOutcome × Except Error Unit) × σ
  | none => (([.empty], .ok ()), s)
  | some cmd => stream s cmd

/-- `Connection::query`. -/
def connectionQuery {Statement σ : Type} (parseBatch : String → ParsedBatch Statement)
    (execute : σ → Statement → Except Error ExecOutcome × σ) (s : σ) (sql : String) :
    Except Error (List ItemRow) × σ :=
  match connectionExec parseBatch execute s sql with
  | .error e => (.error e, s)
  | .ok (results, s') => (results.rowSet, s')

/-! ### What a query is for -/

section Queries

variable {Command σ : Type}
  (stream : σ → Command → (List ExecOutcome × Except Error Unit) × σ) (s : σ)

/-- The outcome is rows and nothing else. -/
def ReturnsRows (outcome : ExecOutcome) (rows : List ItemRow) : Prop :=
  ∃ set, flatten outcome = [set] ∧ set.kind = .rows ∧ set.rows = rows

/-- A text that parses as one statement, empty ones aside, which succeeds and
returns these rows. -/
structure IsOneQuery (batch : ParsedBatch (Option Command)) (rows : List ItemRow) : Prop where
  parsed : batch.error = none
  one : ∃ cmd outcome, batch.statements.reduceOption = [cmd] ∧
    (sessionExecute stream s cmd).1 = .ok outcome ∧ ReturnsRows outcome rows

/-- Rows are returned for one query, its own in order, and for no other text. -/
def QueriesOne (parseBatch : String → ParsedBatch (Option Command)) (sql : String) : Prop :=
  ∀ rows, (connectionQuery parseBatch (sessionExecute (withEmpty stream)) s sql).1 = .ok rows ↔
    IsOneQuery stream s (parseBatch sql) rows

/-- Rows that the statements begin to show are all that they show, and no empty
statement comes before a query. -/
structure ShowsRowsAlone (batch : ParsedBatch (Option Command)) : Prop where
  rows : ∀ set sets,
    batchSets (sessionExecute (withEmpty stream)) s batch.statements = set :: sets →
    set.kind = .rows → batch.error = none ∧ ∃ cmd rest outcome,
      batch.statements = some cmd :: rest ∧ (∀ stmt ∈ rest, stmt = none) ∧
      (sessionExecute stream s cmd).1 = .ok outcome ∧ flatten outcome = [set]
  first : ∀ rest, batch.statements = none :: rest → ∀ rows, ¬IsOneQuery stream s batch rows

end Queries

/-! ### What is read -/

namespace Results

variable {Statement σ : Type}

/-- The loop reads the rows that are left of the set. -/
theorem readRows_eq {set : ResultSetData} (hkind : set.kind = .rows) {turns : Nat}
    {r : Results Statement} (hcurrent : r.current = some set) (hrow : -1 ≤ r.rowIndex)
    (hturns : set.rows.length < turns + (r.rowIndex + 1).toNat) :
    (r.readRows turns).1 = set.rows.drop (r.rowIndex + 1).toNat ∧
      (r.readRows turns).2.error = r.error := by
  induction turns generalizing r with
  | zero =>
      rw [readRows, List.drop_eq_nil_of_le (by omega)]
      exact ⟨rfl, rfl⟩
  | succ turns ih =>
      have hnext : ¬r.rowIndex + 1 < 0 := by omega
      cases hget : set.rows[(r.rowIndex + 1).toNat]? with
      | none =>
          have hstop : r.nextRow = (false, r) := by
            rw [nextRow, hcurrent]
            simp [hkind, hnext, hget]
          rw [readRows, hstop]
          exact ⟨(List.drop_eq_nil_of_le (List.getElem?_eq_none_iff.mp hget)).symm, rfl⟩
      | some row =>
          have hread : r.nextRow =
              (true, { r with rowIndex := r.rowIndex + 1, currentRow := row }) := by
            rw [nextRow, hcurrent]
            simp [hkind, hnext, hget]
          have hnat : (r.rowIndex + 1 + 1).toNat = (r.rowIndex + 1).toNat + 1 := by omega
          obtain ⟨hrows, herror⟩ := ih
            (r := { r with rowIndex := r.rowIndex + 1, currentRow := row }) hcurrent
            (show -1 ≤ r.rowIndex + 1 by omega)
            (show set.rows.length < turns + (r.rowIndex + 1 + 1).toNat by omega)
          obtain ⟨hlt, hrow'⟩ := List.getElem?_eq_some_iff.mp hget
          rw [readRows, hread]
          refine ⟨?_, herror⟩
          dsimp only
          rw [hrows]
          show row :: set.rows.drop (r.rowIndex + 1 + 1).toNat = _
          rw [hnat, List.drop_eq_getElem_cons hlt, hrow']

/-- All rows of the set where the results begin are read. -/
theorem readRows_of_tracks {execute : σ → Statement → Except Error ExecOutcome × σ}
    {batch : ParsedBatch Statement} {s₀ : σ} {r : Results Statement}
    {state : σ × List (Execution Statement)} {sets : List ResultSetData}
    (hcurrent : r.current = sets.head?)
    (htracks : Tracks execute batch s₀ (r, state) (.ofSets sets)) {set : ResultSetData}
    (hset : r.current = some set) (hkind : set.kind = .rows) :
    r.error = none ∧ (r.readRows (r.rowCount + 1)).1 = set.rows ∧
      (r.readRows (r.rowCount + 1)).2.error = none := by
  rcases htracks with h | h
  · obtain ⟨set', hset', hrows⟩ := h.set
    have hloaded : r.loaded = true := h.loaded
    have hsame : some set' = some set := by
      rw [← hset', ← hset, current, hloaded]
      rfl
    obtain rfl := Option.some.inj hsame
    rw [EagerCursor.ofSets, ← hcurrent, hset] at hrows
    have hlength : set'.scoredRows.length = set'.rows.length := by
      simp [ResultSetData.scoredRows, hkind]
    have hdrop : set'.scoredRows.length =
        (set'.scoredRows.drop (r.rowIndex + 1).toNat).length := congrArg List.length hrows
    rw [List.length_drop, hlength] at hdrop
    have hcount : r.rowCount = set'.rows.length := by
      rw [rowCount, hset]
      rfl
    have hrow : -1 ≤ r.rowIndex := h.row
    have herror : r.error = none := h.error
    have henough : set'.rows.length < r.rowCount + 1 + (r.rowIndex + 1).toNat := by omega
    obtain ⟨hread, hkept⟩ := readRows_eq hkind hset hrow henough
    have hwhole : set'.rows.drop (r.rowIndex + 1).toNat = set'.rows := by
      by_cases hstart : (r.rowIndex + 1).toNat = 0
      · rw [hstart, List.drop_zero]
      · have hnil : set'.rows = [] := List.length_eq_zero_iff.mp (by omega)
        rw [hnil, List.drop_nil]
    exact ⟨herror, hread.trans hwhole, hkept.trans herror⟩
  · have hloaded : r.loaded = false := h.loaded
    rw [current, hloaded] at hset
    cases hset

/-- What the results of a batch begin with. -/
theorem prime_begins (execute : σ → Statement → Except Error ExecOutcome × σ)
    (batch : ParsedBatch Statement) (s₀ : σ) :
    let r := (prime execute s₀ { statements := batch.statements, parseError := batch.error }).1
    r.current = (batchSets execute s₀ batch.statements).head? ∧
      ∀ set, r.current = some set → set.kind = .rows → r.error = none ∧
        (r.readRows (r.rowCount + 1)).1 = set.rows ∧
        (r.readRows (r.rowCount + 1)).2.error = none := by
  obtain ⟨hcurrent, htracks⟩ := prime_tracks execute batch s₀
  have hlogged := @advanceStatement_logging _ _ execute (s₀, [])
    { statements := batch.statements, parseError := batch.error }
  simp only [prime, hlogged, forget]
  exact ⟨hcurrent, fun set hset hkind => readRows_of_tracks hcurrent htracks hset hkind⟩

end Results

/-- A query has rows when they are what its statements begin to show. -/
theorem connectionQuery_ok_iff {Statement σ : Type} (parseBatch : String → ParsedBatch Statement)
    (execute : σ → Statement → Except Error ExecOutcome × σ) (s : σ) (sql : String)
    (rows : List ItemRow) :
    (connectionQuery parseBatch execute s sql).1 = .ok rows ↔
      ∃ set sets, batchSets execute s (parseBatch sql).statements = set :: sets ∧
        set.kind = .rows ∧ set.rows = rows := by
  rcases connectionExec_cases parseBatch execute s sql with ⟨e, hexec, hnil⟩ | hexec
  · rw [connectionQuery, hexec, hnil]
    constructor
    · rintro ⟨⟩
    · rintro ⟨set, sets, ⟨⟩, -⟩
  obtain ⟨hcurrent, hread⟩ := Results.prime_begins execute (parseBatch sql) s
  rw [connectionQuery, hexec]
  dsimp only
  generalize (Results.prime execute s
    { statements := (parseBatch sql).statements, parseError := (parseBatch sql).error }).1 = r
    at hcurrent hread
  cases hsets : batchSets execute s (parseBatch sql).statements with
  | nil =>
      rw [hsets] at hcurrent
      have hkind : r.kind ≠ .rows := by
        rw [Results.kind, hcurrent]
        decide
      rw [Results.rowSet, if_pos hkind]
      constructor
      · cases r.error <;> rintro ⟨⟩
      · rintro ⟨set, sets, ⟨⟩, -⟩
  | cons set sets =>
      rw [hsets] at hcurrent
      have hkind : r.kind = set.kind := by
        rw [Results.kind, hcurrent]
        rfl
      rw [Results.rowSet, hkind]
      by_cases hrows : set.kind = .rows
      · obtain ⟨-, hread, hkept⟩ := hread set hcurrent hrows
        rw [if_neg (not_not_intro hrows)]
        dsimp only
        rw [hread, hkept]
        constructor
        · intro h
          exact ⟨set, sets, rfl, hrows, Except.ok.inj h⟩
        · rintro ⟨_, _, heq, -, rfl⟩
          cases heq
          rfl
      · rw [if_pos hrows]
        constructor
        · cases r.error <;> rintro ⟨⟩
        · rintro ⟨_, _, heq, hkind', -⟩
          cases heq
          exact absurd hkind' hrows

/-! ### One query -/

section OneQuery

variable {Command σ : Type}
  {stream : σ → Command → (List ExecOutcome × Except Error Unit) × σ} {s : σ}

/-- An empty statement shows the empty outcome and leaves the session alone. -/
theorem batchSets_empty (rest : List (Option Command)) :
    batchSets (sessionExecute (withEmpty stream)) s (none :: rest) =
      {} :: batchSets (sessionExecute (withEmpty stream)) s rest := rfl

theorem batchSets_command {cmd : Command} {outcome : ExecOutcome}
    (hexecute : (sessionExecute stream s cmd).1 = .ok outcome) (rest : List (Option Command)) :
    batchSets (sessionExecute (withEmpty stream)) s (some cmd :: rest) = flatten outcome ++
      batchSets (sessionExecute (withEmpty stream)) (sessionExecute stream s cmd).2 rest := by
  have hsame : sessionExecute (withEmpty stream) s (some cmd) =
      (.ok outcome, (sessionExecute stream s cmd).2) := Prod.ext hexecute rfl
  rw [batchSets, runBatch, hsame, List.flatMap_cons]
  rfl

theorem reduceOption_empty {rest : List (Option Command)} :
    rest.reduceOption = [] ↔ ∀ stmt ∈ rest, stmt = none := by
  simp [List.reduceOption]

/-- A query gives rows for one row-returning statement, and for nothing else,
exactly where the rows that a text shows first are alone. -/
theorem query_exact_iff (parseBatch : String → ParsedBatch (Option Command)) (sql : String) :
    QueriesOne stream s parseBatch sql ↔ ShowsRowsAlone stream s (parseBatch sql) := by
  simp only [QueriesOne, connectionQuery_ok_iff]
  generalize parseBatch sql = batch
  constructor
  · intro h
    constructor
    · intro set sets hsets hkind
      obtain ⟨hparsed, cmd, outcome, hone, hexecute, set', hflat, hkind', hrows⟩ :=
        (h set.rows).mp ⟨set, sets, hsets, hkind, rfl⟩
      refine ⟨hparsed, ?_⟩
      cases hstatements : batch.statements with
      | nil =>
          rw [hstatements] at hsets
          cases hsets
      | cons stmt rest =>
          rw [hstatements] at hsets hone
          cases stmt with
          | none =>
              rw [batchSets_empty] at hsets
              cases hsets
              cases hkind
          | some first =>
              rw [List.reduceOption_cons_of_some] at hone
              obtain ⟨rfl, hrest⟩ := List.cons.inj hone
              rw [batchSets_command hexecute, hflat] at hsets
              cases hsets
              exact ⟨first, rest, outcome, rfl, reduceOption_empty.mp hrest, hexecute, hflat⟩
    · intro rest hstatements rows hquery
      obtain ⟨set, sets, hsets, hkind, -⟩ := (h rows).mpr hquery
      rw [hstatements, batchSets_empty] at hsets
      cases hsets
      cases hkind
  · intro h rows
    constructor
    · rintro ⟨set, sets, hsets, hkind, rfl⟩
      obtain ⟨hparsed, cmd, rest, outcome, hstatements, hrest, hexecute, hflat⟩ :=
        h.rows set sets hsets hkind
      refine ⟨hparsed, cmd, outcome, ?_, hexecute, set, hflat, hkind, rfl⟩
      rw [hstatements, List.reduceOption_cons_of_some, reduceOption_empty.mpr hrest]
    · intro hquery
      obtain ⟨hparsed, cmd, outcome, hone, hexecute, set, hflat, hkind, hrows⟩ := id hquery
      cases hstatements : batch.statements with
      | nil =>
          rw [hstatements] at hone
          cases hone
      | cons stmt rest =>
          cases stmt with
          | none => exact absurd hquery (h.first rest hstatements rows)
          | some first =>
              rw [hstatements, List.reduceOption_cons_of_some] at hone
              obtain ⟨rfl, -⟩ := List.cons.inj hone
              rw [batchSets_command hexecute, hflat]
              exact ⟨set, _, rfl, hkind, hrows⟩

end OneQuery

/-- A session whose scans return one row each. -/
def selecting : Nat × Nat → SelectCmd →
    (List ExecOutcome × Except Error Unit) × (Nat × Nat) :=
  (Engine.playing (fun _ => {}) (fun cmd => emitSingle (executeSelect 1 cmd "aaa"))
    (pagedTable [{ items := [rowOf "x"] }, { items := [rowOf "y"] }])).execute

/-- Of two queries in a text the second is never run. -/
theorem twoQueries_halved : ¬QueriesOne selecting (0, 0)
    (fun _ => { statements := [some { table := "t" }, some { table := "u" }] })
    "select * from t; select * from u;" := by
  intro h
  have hrows := (h [rowOf "x"]).mp ((connectionQuery_ok_iff _ _ _ _ _).mpr ⟨_, _, rfl, rfl, rfl⟩)
  obtain ⟨-, cmd, outcome, hone, -⟩ := hrows
  cases hone

end DdbShell
