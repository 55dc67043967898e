import DdbShell.Cli.RunSource

/-!
What a run leaves behind. The statements executed are logged beside the session,
which changes nothing in the run, and the exit code is read off the last entry
of the log: batches that execute nothing do not disturb it. With what is known
of the lines this says what the loop over the input does, from end to end.
-/

namespace DdbShell

/-! ### The statements executed -/

/-- A statement with whether it failed. -/
abbrev Executed (Statement : Type) := Statement × Bool

namespace Engine

variable {Statement σ : Type} (engine : Engine Statement σ)

/-- The engine with a log of what was executed beside its session. -/
def logged : Engine Statement (σ × List (Executed Statement)) where
  parseBatch := engine.parseBatch
  execute := fun (session, log) stmt =>
    let (result, session) := engine.execute session stmt
    (result, (session, log ++ [(stmt, !result.2.isOk)]))
  isQuit := engine.isQuit

@[simp] theorem logged_parseBatch : engine.logged.parseBatch = engine.parseBatch := rfl

@[simp] theorem logged_isQuit : engine.logged.isQuit = engine.isQuit := rfl

end Engine

namespace Shell

variable {σ τ : Type}

def mapSession (f : σ → τ) (shell : Shell σ) : Shell τ :=
  { session := f shell.session, console := shell.console }

end Shell

namespace SourceState

variable {σ τ : Type}

def mapSession (f : σ → τ) (st : SourceState σ) : SourceState τ :=
  { buffer := st.buffer, lastError := st.lastError, term := st.term,
    shell := st.shell.mapSession f }

@[simp] theorem mapSession_buffer (f : σ → τ) (st : SourceState σ) :
    (st.mapSession f).buffer = st.buffer := rfl

@[simp] theorem mapSession_term (f : σ → τ) (st : SourceState σ) :
    (st.mapSession f).term = st.term := rfl

end SourceState

namespace SourceRun

variable {σ τ : Type}

def mapSession (f : σ → τ) (run : SourceRun σ) : SourceRun τ :=
  ⟨run.events, run.code, run.final.mapSession f⟩

end SourceRun

/-! ### Two sessions in step -/

section InStep

open SourceState

variable {σ τ : Type} {f : σ → τ} {runBatch : String → Shell σ → BatchStatus × Shell σ}
  {runBatch' : String → Shell τ → BatchStatus × Shell τ}

/-- Batches in step make runs in step. -/
theorem runSource_mapSession
    (h : ∀ text shell, runBatch' text (shell.mapSession f) =
      Prod.map id (Shell.mapSession f) (runBatch text shell))
    (lines : List String) (st : SourceState σ) :
    runSource runBatch' lines (st.mapSession f) = (runSource runBatch lines st).mapSession f := by
  have hbatch (st : SourceState σ) : (st.mapSession f).ranBuffer runBatch' =
      Prod.map id (SourceState.mapSession f) (st.ranBuffer runBatch) := by
    unfold SourceState.ranBuffer
    rw [show (st.mapSession f).shell = st.shell.mapSession f from rfl, h]
    rfl
  fun_induction runSource runBatch lines st with
  | case1 st hbuffer =>
      rw [runSource, mapSession_buffer, if_pos hbuffer]
      rfl
  | case2 st hbuffer status st' hran =>
      rw [runSource, mapSession_buffer, if_neg hbuffer, hbatch, hran]
      rfl
  | case3 line rest st term hdirective ih =>
      rw [runSource, mapSession_buffer, hdirective]
      exact congrArg (SourceRun.after (.read line)) ih
  | case4 line rest st hnone hterm hbuffer ih =>
      rw [runSource, mapSession_buffer, mapSession_term, hnone]
      simp only [hterm, hbuffer, if_true]
      exact congrArg (SourceRun.after (.read line)) ih
  | case5 line rest st hnone hterm hbuffer status st' hran hstop =>
      rw [runSource, mapSession_buffer, mapSession_term, hnone, hbatch, hran]
      simp only [hterm, hbuffer, if_true, if_false, Prod.map, id_eq, hstop]
      rfl
  | case6 line rest st hnone hterm hbuffer status st' hran hstop ih =>
      rw [runSource, mapSession_buffer, mapSession_term, hnone, hbatch, hran]
      simp only [hterm, hbuffer, if_true, if_false, Prod.map, id_eq, hstop]
      rw [ih]
      rfl
  | case7 line rest st hnone hterm ih =>
      rw [runSource, mapSession_buffer, mapSession_term, hnone]
      simp only [hterm]
      exact congrArg (SourceRun.after (.read line)) ih

end InStep

section Logged

variable {Statement σ : Type} (doubleText : Double → String) (engine : Engine Statement σ)
  (abortOnError : Bool)

theorem logged_execute {session session' : σ} {stmt : Statement}
    {result : List ExecOutcome × Except Error Unit}
    (h : engine.execute session stmt = (result, session')) (log : List (Executed Statement)) :
    engine.logged.execute (session, log) stmt =
      (result, (session', log ++ [(stmt, !result.2.isOk)])) := by
  simp [Engine.logged, h]

/-- The log changes nothing. -/
theorem runStatements_logged (statements : List Statement) (status : BatchStatus)
    (shell : Shell (σ × List (Executed Statement))) :
    runStatements doubleText engine abortOnError statements status (shell.mapSession Prod.fst) =
      Prod.map id (Shell.mapSession Prod.fst)
        (runStatements doubleText engine.logged abortOnError statements status shell) := by
  induction statements generalizing status shell with
  | nil => rfl
  | cons stmt rest ih =>
      obtain ⟨⟨session, log⟩, console⟩ := shell
      rcases hrun : engine.execute session stmt with ⟨⟨fragments, outcome⟩, session'⟩
      rw [runStatements, runStatements]
      simp only [Shell.mapSession, hrun, logged_execute engine hrun, Engine.logged_isQuit]
      cases outcome with
      | error e =>
          cases abortOnError with
          | true => rfl
          | false => exact ih _ ⟨(session', log ++ [(stmt, true)]), _⟩
      | ok _ =>
          cases engine.isQuit stmt with
          | true => rfl
          | false => exact ih _ ⟨(session', log ++ [(stmt, false)]), _⟩

/-- The shell with the parse error of a batch printed. -/
def reportParse (batch : ParsedBatch Statement) (shell : Shell σ) : Shell σ :=
  match batch.error with
  | some e => { shell with console := shell.console.reportError e }
  | none => shell

theorem runBatchText_eq {text : String} {shell shell' : Shell σ} {status : BatchStatus}
    (h : runStatements doubleText engine abortOnError (engine.parseBatch text).statements {} shell =
      (status, shell')) :
    runBatchText doubleText engine abortOnError text shell =
      (status, if status.stops then shell' else reportParse (engine.parseBatch text) shell') := by
  rw [runBatchText]
  simp only [h, reportParse]
  cases status.stops with
  | true => rfl
  | false => cases (engine.parseBatch text).error <;> rfl

theorem runBatchText_logged (text : String) (shell : Shell (σ × List (Executed Statement))) :
    runBatchText doubleText engine abortOnError text (shell.mapSession Prod.fst) =
      Prod.map id (Shell.mapSession Prod.fst)
        (runBatchText doubleText engine.logged abortOnError text shell) := by
  rcases hrun : runStatements doubleText engine.logged abortOnError
    (engine.parseBatch text).statements {} shell with ⟨status, shell'⟩
  have hplain := runStatements_logged doubleText engine abortOnError
    (engine.parseBatch text).statements {} shell
  rw [hrun] at hplain
  rw [runBatchText_eq doubleText engine abortOnError hplain,
    runBatchText_eq doubleText engine.logged abortOnError hrun]
  cases hstop : status.stops with
  | true => simp [hstop]
  | false =>
      simp only [Prod.map, id_eq, hstop, reportParse, Engine.logged_parseBatch]
      cases (engine.parseBatch text).error <;> rfl

/-- What a run without the log does is what a run with it does. -/
theorem runSource_logged (lines : List String)
    (st : SourceState (σ × List (Executed Statement))) :
    runSource (runBatchText doubleText engine abortOnError) lines (st.mapSession Prod.fst) =
      (runSource (runBatchText doubleText engine.logged abortOnError) lines st).mapSession
        Prod.fst :=
  runSource_mapSession (runBatchText_logged doubleText engine abortOnError) lines st

/-! ### The last of them -/

/-- The outcome of the last statement in a log. -/
def lastFailed (log : List (Executed Statement)) : Option Bool := log.getLast?.map Prod.snd

/-- A batch leaves the outcome of its last statement, or the log as it was. -/
theorem runStatements_lastError (statements : List Statement) (status : BatchStatus)
    (shell : Shell (σ × List (Executed Statement))) :
    let run := runStatements doubleText engine.logged abortOnError statements status shell
    (run.1.lastError = lastFailed run.2.session.2 ∧ run.1.lastError ≠ none) ∨
      (run.1.lastError = status.lastError ∧ run.2.session.2 = shell.session.2) := by
  induction statements generalizing status shell with
  | nil => exact .inr ⟨rfl, rfl⟩
  | cons stmt rest ih =>
      obtain ⟨⟨session, log⟩, console⟩ := shell
      rcases hrun : engine.execute session stmt with ⟨⟨fragments, outcome⟩, session'⟩
      -- the entry just made is the last until another is
      have hentry (failed : Bool) : some failed = lastFailed (log ++ [(stmt, failed)]) := by
        simp [lastFailed]
      have hrest (status : BatchStatus) (failed : Bool) (console : Console)
          (hstatus : status.lastError = some failed) :
          let run := runStatements doubleText engine.logged abortOnError rest status
            ⟨(session', log ++ [(stmt, failed)]), console⟩
          run.1.lastError = lastFailed run.2.session.2 ∧ run.1.lastError ≠ none := by
        rcases ih status ⟨(session', log ++ [(stmt, failed)]), console⟩ with hlast | ⟨hsame, hlog⟩
        · exact hlast
        · rw [hstatus] at hsame
          exact ⟨by rw [hlog, hsame]; exact hentry failed, by simp [hsame]⟩
      refine .inl ?_
      simp only [runStatements, logged_execute engine hrun, Engine.logged_isQuit]
      cases outcome with
      | error e =>
          cases abortOnError with
          | true => exact ⟨hentry true, by simp⟩
          | false => exact hrest _ true _ rfl
      | ok _ =>
          cases engine.isQuit stmt with
          | true => exact ⟨hentry false, by simp⟩
          | false => exact hrest _ false _ rfl

theorem runBatchText_lastError (text : String) (shell : Shell (σ × List (Executed Statement))) :
    let run := runBatchText doubleText engine.logged abortOnError text shell
    (run.1.lastError = lastFailed run.2.session.2 ∧ run.1.lastError ≠ none) ∨
      (run.1.lastError = none ∧ run.2.session.2 = shell.session.2) := by
  rcases hrun : runStatements doubleText engine.logged abortOnError
    (engine.parseBatch text).statements {} shell with ⟨status, shell'⟩
  have hstatements := runStatements_lastError doubleText engine abortOnError
    (engine.parseBatch text).statements {} shell
  have hsession : (reportParse (engine.parseBatch text) shell').session = shell'.session := by
    unfold reportParse
    cases (engine.parseBatch text).error <;> rfl
  rw [hrun] at hstatements
  rw [runBatchText_eq doubleText engine.logged abortOnError hrun]
  cases hstop : status.stops with
  | true => exact hstatements
  | false =>
      simp only [Engine.logged_parseBatch, Bool.false_eq_true, if_false, hsession]
      exact hstatements

/-- The code is that of the last statement executed. -/
theorem runSource_lastError (lines : List String)
    (st : SourceState (σ × List (Executed Statement)))
    (h : st.lastError = lastFailed st.shell.session.2) :
    let run := runSource (runBatchText doubleText engine.logged abortOnError) lines st
    run.code = if (lastFailed run.final.shell.session.2).getD false then 1 else 0 := by
  have hran {st st' : SourceState (σ × List (Executed Statement))} {status : BatchStatus}
      (h : st.lastError = lastFailed st.shell.session.2)
      (hran : st.ranBuffer (runBatchText doubleText engine.logged abortOnError) = (status, st')) :
      st'.lastError = lastFailed st'.shell.session.2 := by
    have hbatch := runBatchText_lastError doubleText engine abortOnError st.buffer st.shell
    rcases hrun : runBatchText doubleText engine.logged abortOnError st.buffer st.shell with
      ⟨status', shell'⟩
    rw [hrun] at hbatch
    simp only [SourceState.ranBuffer, hrun, Prod.mk.injEq] at hran
    obtain ⟨rfl, rfl⟩ := hran
    rcases hbatch with ⟨hlast, hsome⟩ | ⟨hnone, hlog⟩
    · simp only [Option.isSome_iff_ne_none.mpr hsome, if_true]
      exact hlast
    · rw [if_neg (by simp [show status'.lastError = none from hnone])]
      exact h.trans (congrArg lastFailed hlog.symm)
  have hfinish {st : SourceState (σ × List (Executed Statement))}
      (h : st.lastError = lastFailed st.shell.session.2) :
      st.finish.code =
        if (lastFailed st.finish.final.shell.session.2).getD false then 1 else 0 := by
    rw [SourceState.finish, SourceState.exitCode, h]
  fun_induction runSource (runBatchText doubleText engine.logged abortOnError) lines st with
  | case1 st hbuffer => exact hfinish h
  | case2 st hbuffer status st' hrun => exact hfinish (hran h hrun)
  | case3 line rest st term hdirective ih => exact ih h
  | case4 line rest st hnone hterm hbuffer ih => exact ih h
  | case5 line rest st hnone hterm hbuffer status st' hrun hstop => exact hfinish (hran h hrun)
  | case6 line rest st hnone hterm hbuffer status st' hrun hstop ih => exact ih (hran h hrun)
  | case7 line rest st hnone hterm ih => exact ih h

/-- The loop over the input, from an empty buffer. Every line read has a class,
the texts handed over are the content between terminators and each is handed
over at its terminator, nothing happens after a batch that stops the shell, and
the code is 1 for a last statement that failed. The lines that are dropped in
front of a batch are those without a character. -/
theorem runSource_batches (term : Terminator) (lines : List String) (session : σ)
    (console : Console) :
    let run := runSource (runBatchText doubleText engine abortOnError) lines
      { term := term, shell := ⟨session, console⟩ }
    let logged := runSource (runBatchText doubleText engine.logged abortOnError) lines
      { term := term, shell := ⟨(session, []), console⟩ }
    let classified := classify term true (linesOf run.events)
    -- the lines read, each with its class
    classified.map Prod.snd = linesOf run.events ∧
      (∃ unread, lines = linesOf run.events ++ unread ∧
        (unread = [] ∨ ∃ before text status, status.stops = true ∧
          run.events = before ++ [.ran text status])) ∧
      -- the texts handed over
      textsOf run.events = ((contentRuns classified).map batchText).filter (· ≠ "") ∧
      (contentRuns classified).flatten = classified.filterMap contentLine ∧
      (∀ before text status after, run.events = before ++ .ran text status :: after →
        textsOf before ++ [text] = batchTexts term (linesOf before)) ∧
      -- where it ends
      (∀ before text status after, run.events = before ++ .ran text status :: after →
        status.stops = true → after = []) ∧
      -- the statements executed
      run = logged.mapSession Prod.fst ∧
      (run.code = 0 ∨ run.code = 1) ∧
      (run.code = 1 ↔ ∃ stmt, logged.final.shell.session.2.getLast? = some (stmt, true)) := by
  intro run logged classified
  have hlogged : run = logged.mapSession Prod.fst :=
    runSource_logged doubleText engine abortOnError lines
      { term := term, shell := ⟨(session, []), console⟩ }
  have hcode : run.code =
      if (lastFailed logged.final.shell.session.2).getD false then 1 else 0 := by
    rw [hlogged]
    exact runSource_lastError doubleText engine abortOnError lines _ rfl
  have htexts : textsOf run.events = textsFrom [] classified := runSource_texts lines rfl
  refine ⟨map_snd_classify _ _ _, runSource_reads lines _, ?_, flatten_contentRuns _, ?_, ?_,
    hlogged, ?_, ?_⟩
  · rw [htexts]
    exact (batchTexts_eq term (linesOf run.events)).symm
  · intro before text status after hevents
    rw [batchTexts_eq]
    exact runSource_atOnce lines rfl hevents
  · intro before text status after hevents hstop
    exact runSource_stops lines _ hstop hevents
  · rw [hcode]
    split
    · exact .inr rfl
    · exact .inl rfl
  · rw [hcode, lastFailed]
    cases logged.final.shell.session.2.getLast? with
    | none => simp
    | some entry =>
        obtain ⟨stmt, failed⟩ := entry
        cases failed <;> simp

end Logged

/-! ### A line of blanks -/

/-- The text a batch would have, were lines of blanks in front of it dropped. -/
def blankDropped (run : List String) : String := joinWith "\n" (run.dropWhile (trim · = ""))

/-- An engine that finds no statement in any batch. -/
def idleEngine : Engine Unit Unit where
  parseBatch := fun _ => { statements := [], error := none }
  execute := fun session _ => (([], .ok ()), session)
  isQuit := fun _ => false

/-- The terminator test calls a line of blanks blank, the test in front of a
batch does not. -/
theorem blanks_kept :
    textsOf (runSource (runBatchText (fun _ => "") idleEngine false)
        ["  ", "SELECT * FROM t;", "go"] { term := {}, shell := ⟨(), {}⟩ }).events =
      ["  \nSELECT * FROM t;"] ∧
    ((contentRuns (classify {} true ["  ", "SELECT * FROM t;", "go"])).map blankDropped).filter
        (· ≠ "") = ["SELECT * FROM t;"] := by
  decide +kernel

end DdbShell
