import DdbShell.Connection.RenderAll

/-!
Flattening and buffering lose no output. The sets of an outcome show what the
outcome shows, on either stream, and a statement that succeeds shows the same
whether what it emits is buffered into one outcome or rendered as it comes.
-/

namespace DdbShell

open Renderer

/-- What some outcomes have for stderr. -/
def stderrParts (parts : List ExecOutcome) : String := String.join (parts.map renderStderr)

/-- What some sets have for stderr. -/
def stderrText (sets : List ResultSetData) : String :=
  stderrParts (sets.map fun set => set.renderSource)

theorem stderrParts_append (parts parts' : List ExecOutcome) :
    stderrParts (parts ++ parts') = stderrParts parts ++ stderrParts parts' := by
  simp [stderrParts]

theorem renderStderrParts_eq (parts : List ExecOutcome) :
    renderStderrParts parts = stderrParts parts := by
  induction parts with
  | nil => rfl
  | cons part parts ih =>
      rw [renderStderrParts, ih, stderrParts, stderrParts, List.map_cons, String.join_cons]

/-- Written rows have nothing for stderr. -/
theorem stderrText_writeSets (tokens : List String) (items : List (Option ItemRow)) :
    stderrText (writeSets tokens items) = "" := by
  induction tokens generalizing items with
  | nil => rfl
  | cons token tokens ih =>
      have hrest := ih items.tail
      rw [stderrText, stderrParts] at hrest
      rw [writeSets, stderrText, stderrParts, List.map_cons, List.map_cons, String.join_cons, hrest]
      rfl

mutual

theorem stderrText_flatten (outcome : ExecOutcome) :
    stderrText (flatten outcome) = renderStderr outcome := by
  cases outcome with
  | write tokens items => exact stderrText_writeSets tokens items
  | multi parts => exact stderrText_flattenParts parts
  | _ => simp [stderrText, stderrParts, flatten, renderStderr]

theorem stderrText_flattenParts (parts : List ExecOutcome) :
    stderrText (flattenParts parts) = renderStderrParts parts := by
  cases parts with
  | nil => rfl
  | cons part parts =>
      have hpart := stderrText_flatten part
      have hparts := stderrText_flattenParts parts
      rw [stderrText] at hpart hparts
      rw [flattenParts, stderrText, List.map_append, stderrParts_append, hpart, hparts,
        renderStderrParts]

end

/-- What a statement emits, folded into one outcome. -/
theorem render_buffered (doubleText : Double → String) {parts : List ExecOutcome}
    {outcome : ExecOutcome} (h : buffered parts (.ok ()) = .ok outcome) :
    render doubleText outcome = shownParts doubleText parts ∧
      renderStderr outcome = stderrParts parts := by
  constructor
  · rw [← sourcesText_flatten]
    exact sourcesText_buffered doubleText h
  · match parts with
    | [] =>
        cases h
        rfl
    | [part] =>
        cases h
        simp [stderrParts]
    | part :: part' :: parts =>
        cases h
        rw [renderStderr, renderStderrParts_eq]

theorem buffered_ok (parts : List ExecOutcome) :
    ∃ outcome, buffered parts (.ok ()) = .ok outcome := by
  match parts with
  | [] => exact ⟨_, rfl⟩
  | [part] => exact ⟨_, rfl⟩
  | _ :: _ :: _ => exact ⟨_, rfl⟩

/-- The single outcome of a statement shows what the statement emits, if the
statement succeeds. -/
def BuffersOutput (doubleText : Double → String) {Statement σ : Type}
    (stream : σ → Statement → (List ExecOutcome × Except Error Unit) × σ) : Prop :=
  ∀ s stmt, match stream s stmt with
    | ((parts, .ok ()), s') => ∃ outcome, sessionExecute stream s stmt = (.ok outcome, s') ∧
        render doubleText outcome = shownParts doubleText parts ∧
        renderStderr outcome = stderrParts parts
    | ((_, .error e), s') => sessionExecute stream s stmt = (.error e, s')

theorem buffersOutput (doubleText : Double → String) {Statement σ : Type}
    (stream : σ → Statement → (List ExecOutcome × Except Error Unit) × σ) :
    BuffersOutput doubleText stream := by
  intro s stmt
  rcases hstream : stream s stmt with ⟨⟨parts, result⟩, s'⟩
  cases result with
  | ok _ =>
      obtain ⟨outcome, houtcome⟩ := buffered_ok parts
      refine ⟨outcome, ?_, render_buffered doubleText houtcome⟩
      rw [sessionExecute, hstream, ← houtcome]
  | error e =>
      show sessionExecute stream s stmt = (.error e, s')
      rw [sessionExecute, hstream]
      rfl

/-- Neither flattening an outcome nor buffering a statement changes its output. -/
theorem output_preserved (doubleText : Double → String) :
    (∀ outcome, sourcesText doubleText (flatten outcome) = render doubleText outcome ∧
      stderrText (flatten outcome) = renderStderr outcome) ∧
    ∀ (Statement σ : Type) (stream : σ → Statement →
        (List ExecOutcome × Except Error Unit) × σ), BuffersOutput doubleText stream :=
  ⟨fun outcome => ⟨sourcesText_flatten doubleText outcome, stderrText_flatten outcome⟩,
    fun _ _ stream => buffersOutput doubleText stream⟩

end DdbShell
