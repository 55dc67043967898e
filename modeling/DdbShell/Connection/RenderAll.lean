import DdbShell.Cli.Repl
import DdbShell.Connection.Cursor
import DdbShell.Execute.DataExecutors

/-!
The bytes of a whole batch, from the results of the connection and from the
shell. The one renders result sets, a statement's when it is done; the other
prints what a statement emits as it comes. They are the same bytes but for what
a failing statement printed before its error, for the statements behind a QUIT,
which the connection runs too, and for a fragment with a NUL in it, where the
shell stops printing.
-/

namespace DdbShell

open Renderer

namespace Results

/-! ### The loop -/

section Loop

variable {Statement σ : Type} (doubleText : Double → String)
  (execute : σ → Statement → Except Error ExecOutcome × σ)

theorem advanceStatement_moves {s s' : σ} {r r' : Results Statement}
    (h : advanceStatement execute s r = (true, r', s')) :
    r'.statements = r.statements ∧ r.nextIndex < r'.nextIndex ∧
      r'.nextIndex ≤ r.statements.length := by
  fun_induction advanceStatement execute s r with
  | case1 s r hdone => cases h
  | case2 s r hdone hstmt => cases h
  | case3 s r hdone stmt hstmt e s₁ hexecute => cases h
  | case4 s r hdone stmt hstmt outcome s₁ hexecute hempty ih =>
      obtain ⟨hstatements, hnext, hlength⟩ := ih h
      refine ⟨hstatements, ?_, hlength⟩
      have hload : (r.load outcome).nextIndex = r.nextIndex + 1 := rfl
      omega
  | case5 s r hdone stmt hstmt outcome s₁ hexecute hsets =>
      cases h
      refine ⟨rfl, Nat.lt_succ_self r.nextIndex, ?_⟩
      exact (List.getElem?_eq_some_iff.mp hstmt).1

/-- A further set is at hand, or a further statement has been executed. -/
theorem nextResult_moves {s s' : σ} {r r' : Results Statement}
    (h : r.nextResult execute s = (true, r', s')) :
    r'.statements.length - r'.nextIndex < r.statements.length - r.nextIndex ∨
      (r'.statements.length - r'.nextIndex = r.statements.length - r.nextIndex ∧
        r'.sets.length - r'.setIndex < r.sets.length - r.setIndex) := by
  unfold nextResult at h
  split at h
  · cases h
  · split at h
    · next hmore =>
        have hlt : r.setIndex + 1 < r.sets.length := by
          simpa using (Bool.and_eq_true_iff.mp hmore).2
        cases h
        refine .inr ⟨rfl, ?_⟩
        show r.sets.length - (r.setIndex + 1) < r.sets.length - r.setIndex
        omega
    · obtain ⟨hstatements, hnext, hlength⟩ := advanceStatement_moves execute h
      rw [hstatements]
      exact .inl (by omega)

/-- What `render_all` appends for the current set: its bytes, and those of its
diagnostics. -/
def shown (r : Results Statement) : String :=
  match r.current with
  | none => ""
  | some set => render doubleText set.renderSource ++ renderStderr set.renderSource

/-- The sets after the current one, as long as there are any. -/
def renderRest (s : σ) (r : Results Statement) : String × Results Statement × σ :=
  match _ : r.nextResult execute s with
  | (false, r', s') => ("", r', s')
  | (true, r', s') =>
      let (more, last) := renderRest s' r'
      (r'.shown doubleText ++ more, last)
termination_by (r.statements.length - r.nextIndex, r.sets.length - r.setIndex)
decreasing_by
  rcases nextResult_moves execute ‹_› with hless | ⟨hsame, hless⟩
  · exact Prod.Lex.left _ _ hless
  · rw [hsame]
    exact Prod.Lex.right _ hless

def renderAll (s : σ) (r : Results Statement) : String × Results Statement × σ :=
  let (more, last) := renderRest doubleText execute s r
  (r.shown doubleText ++ more, last)

end Loop

/-! ### Over the sets of the batch -/

section Sets

variable {Statement σ : Type} (doubleText : Double → String)
  {execute : σ → Statement → Except Error ExecOutcome × σ}

/-- The log of a session changes nothing. -/
def forget (moved : Bool × Results Statement × (σ × List (Execution Statement))) :
    Bool × Results Statement × σ := (moved.1, moved.2.1, moved.2.2.1)

theorem advanceStatement_logging (s : σ × List (Execution Statement)) (r : Results Statement) :
    advanceStatement execute s.1 r = forget (advanceStatement (logging execute) s r) := by
  fun_induction advanceStatement (logging execute) s r with
  | case1 s r hdone => rw [advanceStatement, if_pos hdone]; rfl
  | case2 s r hdone hstmt =>
      rw [advanceStatement_exhausted (Bool.not_eq_true _ ▸ hdone) hstmt]
      rfl
  | case3 s r hdone stmt hstmt e s' hexecute =>
      obtain ⟨hresult, rfl⟩ := Prod.mk.inj hexecute
      rw [advanceStatement_failed (Bool.not_eq_true _ ▸ hdone) hstmt
        (Prod.ext hresult rfl)]
      rfl
  | case4 s r hdone stmt hstmt outcome s' hexecute hempty ih =>
      obtain ⟨hresult, rfl⟩ := Prod.mk.inj hexecute
      rw [advanceStatement_loaded (Bool.not_eq_true _ ▸ hdone) hstmt
        (Prod.ext hresult rfl), if_pos hempty]
      exact ih
  | case5 s r hdone stmt hstmt outcome s' hexecute hsets =>
      obtain ⟨hresult, rfl⟩ := Prod.mk.inj hexecute
      rw [advanceStatement_loaded (Bool.not_eq_true _ ▸ hdone) hstmt
        (Prod.ext hresult rfl), if_neg hsets]
      rfl

theorem nextResult_logging (s : σ × List (Execution Statement)) (r : Results Statement) :
    r.nextResult execute s.1 = forget (r.nextResult (logging execute) s) := by
  unfold nextResult
  rw [advanceStatement_logging]
  split
  · rfl
  · split <;> rfl

/-- What is shown for a set. -/
def setText (set : ResultSetData) : String :=
  render doubleText set.renderSource ++ renderStderr set.renderSource

def setsText (sets : List ResultSetData) : String := String.join (sets.map (setText doubleText))

theorem shown_eq {r : Results Statement} {sets : List ResultSetData}
    (h : r.current = sets.head?) :
    r.shown doubleText ++ setsText doubleText sets.tail = setsText doubleText sets := by
  rw [shown, h]
  cases sets with
  | nil => rfl
  | cons set sets => simp [setsText, setText]

theorem nextResult_tracks {batch : ParsedBatch Statement} {s₀ : σ} {r : Results Statement}
    {s : σ × List (Execution Statement)} {e : EagerCursor}
    (h : Tracks execute batch s₀ (r, s) e) :
    (r.nextResult (logging execute) s).1 = !e.queue.tail.isEmpty ∧
      (r.nextResult (logging execute) s).2.1.current = e.queue.tail.head? ∧
      Tracks execute batch s₀ (r.nextResult (logging execute) s).2 (.ofSets e.queue.tail) := by
  rcases h with h | h
  · exact nextResult_running h
  · have hnext : r.nextResult (logging execute) s = (false, r, s) := by
      rw [nextResult, h.done, if_pos rfl]
    have hcurrent : r.current = none := by
      rw [current, h.loaded]
      rfl
    have hqueue := h.queue
    subst hqueue
    rw [hnext]
    exact ⟨rfl, hcurrent, .inr h⟩

theorem renderRest_eq (s : σ) (r : Results Statement) :
    (renderRest doubleText execute s r).1 =
      if (r.nextResult execute s).1 then
        (r.nextResult execute s).2.1.shown doubleText ++
          (renderRest doubleText execute (r.nextResult execute s).2.2
            (r.nextResult execute s).2.1).1
      else "" := by
  rw [renderRest]
  split
  · next hnext => simp [hnext]
  · next hnext => simp [hnext]

/-- The loop shows the sets that are left of the batch. -/
theorem renderRest_tracks {batch : ParsedBatch Statement} {s₀ : σ} {r : Results Statement}
    {s : σ × List (Execution Statement)} {queue : List ResultSetData}
    {rows : List (ItemRow × Double)} (h : Tracks execute batch s₀ (r, s) ⟨queue, rows⟩) :
    (renderRest doubleText execute s.1 r).1 = setsText doubleText queue.tail := by
  induction queue generalizing r s rows with
  | nil =>
      have hmoved := (nextResult_tracks h).1
      rw [renderRest_eq, nextResult_logging]
      simp only [forget, hmoved]
      rfl
  | cons set rest ih =>
      obtain ⟨hmoved, hcurrent, htracks⟩ := nextResult_tracks h
      rw [renderRest_eq, nextResult_logging]
      simp only [forget, hmoved, List.tail_cons]
      cases rest with
      | nil => rfl
      | cons next rest =>
          show (if true = true then _ else _) = _
          rw [if_pos rfl, ih htracks]
          exact shown_eq doubleText hcurrent

/-- All sets of the batch are shown, in order. -/
theorem renderAll_prime (batch : ParsedBatch Statement) (s₀ : σ) :
    let primed := prime execute s₀ { statements := batch.statements, parseError := batch.error }
    (primed.1.renderAll doubleText execute primed.2).1 =
      setsText doubleText (batchSets execute s₀ batch.statements) := by
  obtain ⟨hcurrent, htracks⟩ := prime_tracks execute batch s₀
  have hlogged := @advanceStatement_logging _ _ execute (s₀, [])
    { statements := batch.statements, parseError := batch.error }
  simp only [prime, renderAll, hlogged, forget]
  rw [renderRest_tracks doubleText htracks]
  exact shown_eq doubleText hcurrent

end Sets

end Results

/-! ### What a statement shows -/

section Outcomes

variable (doubleText : Double → String)

def sourcesText (sets : List ResultSetData) : String :=
  String.join (sets.map fun set => render doubleText set.renderSource)

@[simp] theorem sourcesText_append (sets sets' : List ResultSetData) :
    sourcesText doubleText (sets ++ sets') =
      sourcesText doubleText sets ++ sourcesText doubleText sets' := by
  simp [sourcesText]

/-- One set a row shows what the rows show together. -/
theorem sourcesText_writeSets (tokens : List String) (items : List (Option ItemRow)) :
    sourcesText doubleText (writeSets tokens items) = renderWrite tokens items := by
  induction tokens generalizing items with
  | nil => rfl
  | cons token tokens ih =>
      have hrest := ih items.tail
      rw [sourcesText] at hrest
      rw [writeSets, renderWrite, sourcesText, List.map_cons, String.join_cons, hrest]
      cases items <;> simp [render, renderWrite]

mutual

/-- The sets of an outcome show what the outcome shows. -/
theorem sourcesText_flatten (outcome : ExecOutcome) :
    sourcesText doubleText (flatten outcome) = render doubleText outcome := by
  cases outcome with
  | write tokens items => exact sourcesText_writeSets doubleText tokens items
  | multi parts => exact sourcesText_flattenParts parts
  | _ => simp [sourcesText, flatten, render]

theorem sourcesText_flattenParts (parts : List ExecOutcome) :
    sourcesText doubleText (flattenParts parts) = renderParts doubleText parts := by
  cases parts with
  | nil => rfl
  | cons part parts =>
      rw [flattenParts, sourcesText_append, sourcesText_flatten part,
        sourcesText_flattenParts parts, renderParts]

end

theorem renderParts_eq (parts : List ExecOutcome) :
    renderParts doubleText parts = String.join (parts.map (render doubleText)) := by
  induction parts with
  | nil => rfl
  | cons part parts ih => rw [renderParts, ih, List.map_cons, String.join_cons]

/-- Buffering a statement that succeeds loses nothing. -/
theorem sourcesText_buffered {parts : List ExecOutcome} {outcome : ExecOutcome}
    (h : buffered parts (.ok ()) = .ok outcome) :
    sourcesText doubleText (flatten outcome) = String.join (parts.map (render doubleText)) := by
  rw [sourcesText_flatten]
  match parts with
  | [] => cases h; rfl
  | [part] => cases h; simp
  | part :: part' :: parts =>
      cases h
      rw [render, renderParts_eq]

/-- The diagnostics of a set are what it has for stderr. -/
def Diagnosed (set : ResultSetData) : Prop := renderStderr set.renderSource = lines set.diagnostics

theorem writeSets_diagnosed (tokens : List String) (items : List (Option ItemRow)) :
    ∀ set ∈ writeSets tokens items, Diagnosed set := by
  induction tokens generalizing items with
  | nil => exact fun _ hmem => absurd hmem List.not_mem_nil
  | cons token tokens ih =>
      intro set hmem
      rcases List.mem_cons.mp hmem with rfl | hmem
      · rfl
      · exact ih items.tail set hmem

mutual

theorem flatten_diagnosed (outcome : ExecOutcome) : ∀ set ∈ flatten outcome, Diagnosed set := by
  cases outcome with
  | write tokens items => exact writeSets_diagnosed tokens items
  | multi parts => exact flattenParts_diagnosed parts
  | _ =>
      intro set hmem
      rw [List.mem_singleton.mp hmem]
      rfl

theorem flattenParts_diagnosed (parts : List ExecOutcome) :
    ∀ set ∈ flattenParts parts, Diagnosed set := by
  cases parts with
  | nil => exact fun _ hmem => absurd hmem List.not_mem_nil
  | cons part parts =>
      intro set hmem
      rcases List.mem_append.mp hmem with hmem | hmem
      · exact flatten_diagnosed part set hmem
      · exact flattenParts_diagnosed parts set hmem

end

end Outcomes

/-! ### What a batch shows -/

section Batches

variable {Statement σ : Type} (doubleText : Double → String) (engine : Engine Statement σ)

/-- What the connection executes: a statement's outcome, buffered. -/
def Engine.buffering : σ → Statement → Except Error ExecOutcome × σ :=
  sessionExecute engine.execute

theorem batchSets_diagnosed (s : σ) (statements : List Statement) :
    ∀ set ∈ batchSets engine.buffering s statements, Diagnosed set := by
  intro set hmem
  obtain ⟨⟨stmt, result⟩, -, hset⟩ := List.mem_flatMap.mp hmem
  cases result with
  | error e => cases hset
  | ok outcome => exact flatten_diagnosed outcome set hset

/-- Without diagnostics a set shows its bytes alone. -/
theorem setsText_of_noDiagnostics {s : σ} {statements : List Statement}
    (h : ∀ set ∈ batchSets engine.buffering s statements, set.diagnostics = []) :
    Results.setsText doubleText (batchSets engine.buffering s statements) =
      sourcesText doubleText (batchSets engine.buffering s statements) := by
  refine congrArg String.join (List.map_congr_left fun set hmem => ?_)
  have hstderr : renderStderr set.renderSource = "" := by
    rw [batchSets_diagnosed engine s statements set hmem, h set hmem]
    rfl
  rw [Results.setText, hstderr, String.append_empty]

def shownParts (parts : List ExecOutcome) : String := String.join (parts.map (render doubleText))

/-- What `fputs` writes of the fragments. -/
def printedParts (parts : List ExecOutcome) : String :=
  String.join (parts.map fun part => cString (render doubleText part))

theorem printedParts_eq {parts : List ExecOutcome}
    (h : ∀ part ∈ parts, nulFree (render doubleText part) = true) :
    printedParts doubleText parts = shownParts doubleText parts := by
  refine congrArg String.join (List.map_congr_left fun part hmem => ?_)
  exact cString_eq (h part hmem)

/-- What the statements emit when they are run up to a failure or a QUIT. -/
def Engine.fragments : σ → List Statement → List ExecOutcome
  | _, [] => []
  | s, stmt :: rest =>
      match engine.execute s stmt with
      | ((parts, .error _), _) => parts
      | ((parts, .ok ()), s') =>
          parts ++ if engine.isQuit stmt then [] else Engine.fragments s' rest

/-- What the statement that fails has shown before its error, when statements
are run up to a failure or a QUIT. -/
def shownByFailing : σ → List Statement → String
  | _, [] => ""
  | s, stmt :: rest =>
      match engine.execute s stmt with
      | ((parts, .error _), _) => shownParts doubleText parts
      | ((_, .ok ()), s') => if engine.isQuit stmt then "" else shownByFailing s' rest

/-- What the statements behind a QUIT show when they are run too. -/
def shownBehindQuit : σ → List Statement → String
  | _, [] => ""
  | s, stmt :: rest =>
      match engine.execute s stmt with
      | ((_, .error _), _) => ""
      | ((_, .ok ()), s') =>
          if engine.isQuit stmt then sourcesText doubleText (batchSets engine.buffering s' rest)
          else shownBehindQuit s' rest

/-- A batch is ended once. -/
theorem shownByFailing_or_behindQuit (s : σ) (statements : List Statement) :
    shownByFailing doubleText engine s statements = "" ∨
      shownBehindQuit doubleText engine s statements = "" := by
  induction statements generalizing s with
  | nil => exact .inl rfl
  | cons stmt rest ih =>
      rw [shownByFailing, shownBehindQuit]
      rcases engine.execute s stmt with ⟨⟨parts, outcome⟩, s'⟩
      cases outcome with
      | error e => exact .inr rfl
      | ok _ =>
          cases engine.isQuit stmt with
          | true => exact .inl rfl
          | false => exact ih s'

theorem stdout_foldl_emit (parts : List ExecOutcome) (console : Console) :
    (parts.foldl (Console.emit doubleText) console).stdout =
      console.stdout ++ printedParts doubleText parts := by
  induction parts generalizing console with
  | nil => simp [printedParts]
  | cons part parts ih =>
      rw [List.foldl_cons, ih, Console.emit, printedParts, printedParts, List.map_cons,
        String.join_cons, String.append_assoc]

/-- The shell prints the fragments as they come. -/
theorem runStatements_stdout (statements : List Statement) (status : BatchStatus) (s : σ)
    (console : Console) :
    (runStatements doubleText engine true statements status ⟨s, console⟩).2.console.stdout =
      console.stdout ++ printedParts doubleText (engine.fragments s statements) := by
  induction statements generalizing status s console with
  | nil => simp [runStatements, Engine.fragments, printedParts]
  | cons stmt rest ih =>
      rcases hrun : engine.execute s stmt with ⟨⟨parts, outcome⟩, s'⟩
      have hemit := stdout_foldl_emit doubleText parts console
      simp only [runStatements, Engine.fragments, hrun]
      cases outcome with
      | error e => exact hemit
      | ok _ =>
          cases engine.isQuit stmt with
          | true =>
              simp only [if_true, List.append_nil]
              exact hemit
          | false =>
              refine (ih _ s' _).trans ?_
              rw [hemit, String.append_assoc]
              simp [printedParts]

/-- The sets of a batch and the fragments of its run. -/
theorem sourcesText_batchSets (statements : List Statement) (s : σ) :
    sourcesText doubleText (batchSets engine.buffering s statements) ++
        shownByFailing doubleText engine s statements =
      shownParts doubleText (engine.fragments s statements) ++
        shownBehindQuit doubleText engine s statements := by
  induction statements generalizing s with
  | nil =>
      simp [batchSets, runBatch, sourcesText, shownByFailing, shownBehindQuit, shownParts,
        Engine.fragments]
  | cons stmt rest ih =>
      rcases hrun : engine.execute s stmt with ⟨⟨parts, outcome⟩, s'⟩
      cases outcome with
      | error e =>
          have hbuffering : engine.buffering s stmt = (.error e, s') := by
            simp [Engine.buffering, sessionExecute, hrun, buffered]
          have hsets : batchSets engine.buffering s (stmt :: rest) = [] := by
            simp [batchSets, runBatch, hbuffering, Execution.sets]
          simp [shownByFailing, shownBehindQuit, Engine.fragments, hrun, hsets, sourcesText]
      | ok _ =>
          obtain ⟨outcome, hbuffered⟩ : ∃ outcome, buffered parts (.ok ()) = .ok outcome := by
            rcases parts with _ | ⟨part, _ | ⟨next, parts⟩⟩
            · exact ⟨_, rfl⟩
            · exact ⟨_, rfl⟩
            · exact ⟨_, rfl⟩
          have hbuffering : engine.buffering s stmt = (.ok outcome, s') := by
            simp only [Engine.buffering, sessionExecute, hrun]
            rw [← hbuffered]
          have hsets : batchSets engine.buffering s (stmt :: rest) =
              flatten outcome ++ batchSets engine.buffering s' rest := by
            simp [batchSets, runBatch, hbuffering, Execution.sets]
          have hparts := sourcesText_buffered doubleText hbuffered
          simp only [shownByFailing, shownBehindQuit, Engine.fragments, hrun, hsets,
            sourcesText_append, hparts]
          cases engine.isQuit stmt with
          | true => simp [shownParts]
          | false =>
              have hrest := ih s'
              simp only [Bool.false_eq_true, if_false, shownParts, List.map_append,
                String.join_append, String.append_assoc] at hrest ⊢
              rw [hrest]

theorem runBatchText_stdout (abortOnError : Bool) (text : String) (shell : Shell σ) :
    (runBatchText doubleText engine abortOnError text shell).2.console.stdout =
      (runStatements doubleText engine abortOnError (engine.parseBatch text).statements {}
        shell).2.console.stdout := by
  simp only [runBatchText]
  split
  · rfl
  · cases (engine.parseBatch text).error <;> rfl

/-- No results are made for an error in the first statement only. -/
theorem connectionExec_cases (parseBatch : String → ParsedBatch Statement)
    (execute : σ → Statement → Except Error ExecOutcome × σ) (s : σ) (sql : String) :
    (∃ e, connectionExec parseBatch execute s sql = .error e ∧ (parseBatch sql).statements = []) ∨
      connectionExec parseBatch execute s sql = .ok (Results.prime execute s
        { statements := (parseBatch sql).statements, parseError := (parseBatch sql).error }) := by
  unfold connectionExec
  rcases parseBatch sql with ⟨statements, error⟩
  cases statements with
  | nil =>
      cases error with
      | none => exact .inr rfl
      | some e => exact .inl ⟨e, rfl, rfl⟩
  | cons stmt rest => exact .inr rfl

/-- The results of a batch show what the statements emit, but for two things that
the connection does in its own way: what a statement that fails has emitted is
dropped with it, and QUIT does not end the batch. The shell prints each fragment
up to a NUL in it, so without one the two show the same bytes in all else. -/
theorem renderAll_as_shell (text : String) (session : σ) :
    let stdout := (runBatchText doubleText engine true text ⟨session, {}⟩).2.console.stdout
    let statements := (engine.parseBatch text).statements
    let fragments := engine.fragments session statements
    stdout = printedParts doubleText fragments ∧
    match connectionExec engine.parseBatch engine.buffering session text with
    | .error _ => stdout = ""
    | .ok (results, session') =>
        (∀ set ∈ batchSets engine.buffering session statements, set.diagnostics = []) →
          let all := (results.renderAll doubleText engine.buffering session').1
          all ++ shownByFailing doubleText engine session statements =
              shownParts doubleText fragments ++
                shownBehindQuit doubleText engine session statements ∧
            ((∀ part ∈ fragments, nulFree (render doubleText part) = true) →
              (all = stdout ↔ shownByFailing doubleText engine session statements = "" ∧
                shownBehindQuit doubleText engine session statements = "")) := by
  intro stdout statements fragments
  have hstdout : stdout = printedParts doubleText fragments := by
    have hrun := runStatements_stdout doubleText engine statements {} session {}
    rw [String.empty_append] at hrun
    exact (runBatchText_stdout doubleText engine true text ⟨session, {}⟩).trans hrun
  have hended := shownByFailing_or_behindQuit doubleText engine session statements
  refine ⟨hstdout, ?_⟩
  rcases connectionExec_cases engine.parseBatch engine.buffering session text with
    ⟨e, hexec, hnone⟩ | hexec
  · rw [hexec]
    show stdout = ""
    rw [hstdout, show fragments = [] by simp [fragments, statements, hnone, Engine.fragments]]
    rfl
  · rw [hexec]
    intro hclean all
    have hall : all = sourcesText doubleText (batchSets engine.buffering session statements) := by
      rw [← setsText_of_noDiagnostics doubleText engine hclean]
      exact Results.renderAll_prime doubleText (engine.parseBatch text) session
    have hbytes : all ++ shownByFailing doubleText engine session statements =
        shownParts doubleText fragments ++
          shownBehindQuit doubleText engine session statements := by
      rw [hall]
      exact sourcesText_batchSets doubleText engine statements session
    refine ⟨hbytes, fun hnul => ?_⟩
    rw [← printedParts_eq doubleText hnul, ← hstdout] at hbytes
    constructor
    · intro heq
      rw [heq] at hbytes
      have hsame := String.append_right_inj stdout |>.mp hbytes
      rcases hended with hfailing | hquit
      · exact ⟨hfailing, hsame ▸ hfailing⟩
      · exact ⟨hsame.trans hquit, hquit⟩
    · rintro ⟨hfailing, hquit⟩
      rw [hfailing, hquit, String.append_empty, String.append_empty] at hbytes
      exact hbytes

end Batches

/-! ### An INSERT that fails at its second row -/

/-- Statements played as executors against a client; none is a QUIT. -/
def Engine.playing {Statement σ : Type} (parseBatch : String → ParsedBatch Statement)
    (run : Statement → Exec Unit) (reply : σ → (op : Effect) → op.Answer × σ) :
    Engine Statement (Nat × σ) where
  parseBatch := parseBatch
  execute := fun (counter, s) stmt => Exec.stream reply (run stmt) counter s
  isQuit := fun _ => false

/-- A client whose tables take one item, and then fail. -/
def oneItemReply (puts : Nat) : (op : Effect) → op.Answer × Nat
  | .emit _ => ((), puts)
  | .client (.describeTable table) =>
      (.ok { tableName := table, keySchema := { hashKeys := ["k"], rangeKeys := [] } }, puts)
  | .client (.putItem _) =>
      if puts = 0 then (.ok {}, 1) else (.error ⟨.serviceError, "throttled"⟩, puts)
  | .client _ => (.error ⟨.serviceError, "unavailable"⟩, puts)

/-- INSERT INTO t (k) VALUES ... with the given keys. -/
def insertKeys (keys : List String) : InsertCmd where
  tableName := "t"
  columns := ["k"]
  rows := keys.map fun key => [.S key]

/-- Every batch is the one INSERT. -/
def insertEngine (keys : List String) : Engine InsertCmd (Nat × Nat) :=
  .playing (fun _ => { statements := [insertKeys keys] }) executeInsertStreaming oneItemReply

/-- The shell shows the row that was written, the results show nothing. -/
theorem secondRow_fails :
    (∃ results session', connectionExec (insertEngine ["a", "b"]).parseBatch
        (insertEngine ["a", "b"]).buffering (0, 0) "" = .ok (results, session') ∧
      (results.renderAll (fun _ => "") (insertEngine ["a", "b"]).buffering session').1 = "") ∧
    (runBatchText (fun _ => "") (insertEngine ["a", "b"]) true "" ⟨(0, 0), {}⟩).2.console.stdout =
      "INSERT\n" := by
  refine ⟨⟨_, _, rfl, ?_⟩, by decide +kernel⟩
  refine (Results.renderAll_prime (fun _ => "") { statements := [insertKeys ["a", "b"]] }
    (0, 0)).trans ?_
  decide +kernel

theorem oneRow_shown :
    (∀ set ∈ batchSets (insertEngine ["a"]).buffering (0, 0) [insertKeys ["a"]],
      set.diagnostics = []) ∧
    (∀ part ∈ (insertEngine ["a"]).fragments (0, 0) [insertKeys ["a"]],
      nulFree (render (fun _ => "") part) = true) ∧
    ((Results.prime (insertEngine ["a"]).buffering (0, 0)
        { statements := [insertKeys ["a"]] }).1.renderAll (fun _ => "")
      (insertEngine ["a"]).buffering (Results.prime (insertEngine ["a"]).buffering (0, 0)
        { statements := [insertKeys ["a"]] }).2).1 =
      (runBatchText (fun _ => "") (insertEngine ["a"]) true "" ⟨(0, 0), {}⟩).2.console.stdout := by
  have hclean : ∀ set ∈ batchSets (insertEngine ["a"]).buffering (0, 0) [insertKeys ["a"]],
      set.diagnostics = [] := by decide +kernel
  have hnul : ∀ part ∈ (insertEngine ["a"]).fragments (0, 0) [insertKeys ["a"]],
      nulFree (render (fun _ => "") part) = true := by decide +kernel
  refine ⟨hclean, hnul, ?_⟩
  refine (((renderAll_as_shell (fun _ => "") (insertEngine ["a"]) "" (0, 0)).2 hclean).2
    hnul).mpr ?_
  decide +kernel

end DdbShell
