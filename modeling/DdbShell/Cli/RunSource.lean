import DdbShell.Cli.Repl
import Mathlib.Data.List.TakeWhile

/-!
How lines become batches. Every line is a directive, a terminator or content
by what was read before it; between two terminators the content lines without
the empty ones in front, joined by newlines, are the text of a batch. The loop
hands over exactly these texts, each when its terminator is read, and stops
where a batch says so. A line of blanks only is content: it is no empty line.
-/

namespace DdbShell

/-! ### What the lines are -/

inductive LineClass where
  | directive (term : Terminator)
  | terminator
  | content
  deriving DecidableEq, Repr

/-- What a line is under a terminator. A directive is only looked for while no
line but empty ones has been read of the batch. -/
def classifyLine (term : Terminator) (fresh : Bool) (line : String) : LineClass :=
  match (if fresh then trySetTerminatorDirective (trim line) else none) with
  | some term => .directive term
  | none => if isTerminatorLine (trim line) term then .terminator else .content

/-- The lines with their classes. -/
def classify : Terminator → Bool → List String → List (LineClass × String)
  | _, _, [] => []
  | term, fresh, line :: rest =>
      match classifyLine term fresh line with
      | .directive next => (.directive next, line) :: classify next fresh rest
      | .terminator => (.terminator, line) :: classify term true rest
      | .content => (.content, line) :: classify term (fresh && line = "") rest

theorem map_snd_classify (term : Terminator) (fresh : Bool) (lines : List String) :
    (classify term fresh lines).map Prod.snd = lines := by
  fun_induction classify term fresh lines with
  | case1 => rfl
  | case2 term fresh line rest next hclass ih => exact congrArg (line :: ·) ih
  | case3 term fresh line rest hclass ih => exact congrArg (line :: ·) ih
  | case4 term fresh line rest hclass ih => exact congrArg (line :: ·) ih

def isTerminator (line : LineClass × String) : Bool := line.1 = .terminator

def contentLine (line : LineClass × String) : Option String :=
  if line.1 = .content then some line.2 else none

/-- The content lines between terminators. -/
def contentRuns (classified : List (LineClass × String)) : List (List String) :=
  (classified.splitOnP isTerminator).map fun run => run.filterMap contentLine

/-- The text of a batch: its lines without the empty ones in front. -/
def batchText (run : List String) : String := joinWith "\n" (run.dropWhile (· = ""))

/-- The texts of the batches that are not empty. -/
def batchTexts (term : Terminator) (lines : List String) : List String :=
  ((contentRuns (classify term true lines)).map batchText).filter (· ≠ "")

theorem contentRuns_cons (line : LineClass × String) (rest : List (LineClass × String)) :
    contentRuns (line :: rest) =
      if isTerminator line = true then [] :: contentRuns rest
      else (contentRuns rest).modifyHead ((contentLine line).toList ++ ·) := by
  rw [contentRuns, List.splitOnP_cons_eq_if_modifyHead]
  split
  · rfl
  · rw [contentRuns]
    cases hruns : rest.splitOnP isTerminator with
    | nil => exact absurd hruns (List.splitOnP_ne_nil _ _)
    | cons run runs =>
        simp only [List.modifyHead_cons, List.map_cons]
        cases hline : contentLine line <;> simp [hline]

theorem contentRuns_ne_nil (classified : List (LineClass × String)) :
    contentRuns classified ≠ [] := by
  rw [contentRuns, ne_eq, List.map_eq_nil_iff]
  exact List.splitOnP_ne_nil _ _

/-- No content line is lost, doubled or moved. -/
theorem flatten_contentRuns (classified : List (LineClass × String)) :
    (contentRuns classified).flatten = classified.filterMap contentLine := by
  induction classified with
  | nil => rfl
  | cons line rest ih =>
      rw [contentRuns_cons, List.filterMap_cons]
      by_cases hterm : isTerminator line = true
      · have hclass : line.1 = .terminator := by simpa [isTerminator] using hterm
        have hnone : contentLine line = none := by simp [contentLine, hclass]
        rw [if_pos hterm, hnone, List.flatten_cons, List.nil_append, ih]
      · rw [if_neg hterm]
        cases hruns : contentRuns rest with
        | nil => exact absurd hruns (contentRuns_ne_nil rest)
        | cons run runs =>
            rw [hruns, List.flatten_cons] at ih
            rw [List.modifyHead_cons, List.flatten_cons, List.append_assoc, ih]
            cases contentLine line <;> rfl

/-! ### The text of a run that grows -/

theorem joinWith_append_singleton (sep : String) {parts : List String} (h : parts ≠ [])
    (part : String) : joinWith sep (parts ++ [part]) = joinWith sep parts ++ sep ++ part := by
  induction parts with
  | nil => exact absurd rfl h
  | cons first rest ih =>
      cases rest with
      | nil => rfl
      | cons second rest =>
          have htail := ih (List.cons_ne_nil _ _)
          rw [List.cons_append, List.cons_append, joinWith, ← List.cons_append, htail, joinWith]
          simp [String.append_assoc]

theorem joinWith_ne_empty {sep part : String} (h : part ≠ "") (parts : List String) :
    joinWith sep (part :: parts) ≠ "" := by
  cases parts with
  | nil => exact h
  | cons next rest => simp [joinWith, h]

theorem batchText_eq_empty_iff (run : List String) :
    batchText run = "" ↔ ∀ line ∈ run, line = "" := by
  unfold batchText
  cases hkept : run.dropWhile (· = "") with
  | nil =>
      refine iff_of_true rfl ?_
      simpa using List.dropWhile_eq_nil_iff.mp hkept
  | cons line rest =>
      have hline : line ≠ "" := by
        have hhead := List.head?_dropWhile_not (· = "") run
        rw [hkept] at hhead
        simpa using hhead
      refine iff_of_false (joinWith_ne_empty hline rest) fun hall => ?_
      rw [List.dropWhile_eq_nil_iff.mpr (by simpa using hall)] at hkept
      cases hkept

/-- The buffer after one more content line. -/
theorem batchText_append (run : List String) (line : String) : batchText (run ++ [line]) =
    (if batchText run = "" then "" else batchText run ++ "\n") ++ line := by
  by_cases hempty : batchText run = ""
  · have hall := (batchText_eq_empty_iff run).mp hempty
    have hdrop : run.dropWhile (· = "") = [] := List.dropWhile_eq_nil_iff.mpr (by simpa using hall)
    rw [if_pos hempty, batchText, List.dropWhile_append, hdrop]
    by_cases hline : line = ""
    · simp [hline, joinWith]
    · simp [hline, joinWith]
  · have hkept : run.dropWhile (· = "") ≠ [] := by
      intro hnil
      rw [batchText, hnil] at hempty
      exact hempty rfl
    rw [if_neg hempty, batchText, List.dropWhile_append]
    simp only [List.isEmpty_iff, hkept, if_false]
    exact joinWith_append_singleton "\n" hkept line

/-! ### Texts from the middle of a run -/

/-- The texts of the batches, with content lines read before. -/
def textsFrom (pending : List String) (classified : List (LineClass × String)) : List String :=
  (((contentRuns classified).modifyHead (pending ++ ·)).map batchText).filter (· ≠ "")

theorem batchTexts_eq (term : Terminator) (lines : List String) :
    batchTexts term lines = textsFrom [] (classify term true lines) := by
  rw [batchTexts, textsFrom]
  cases contentRuns (classify term true lines) <;> rfl

theorem textsFrom_nil (pending : List String) :
    textsFrom pending [] = [batchText pending].filter (· ≠ "") := by
  simp [textsFrom, contentRuns]

section TextsFrom

variable (pending : List String) {line : LineClass × String} (rest : List (LineClass × String))

theorem textsFrom_terminator (h : line.1 = .terminator) :
    textsFrom pending (line :: rest) =
      [batchText pending].filter (· ≠ "") ++ textsFrom [] rest := by
  rw [textsFrom, contentRuns_cons, if_pos (by simp [isTerminator, h]), List.modifyHead_cons,
    List.append_nil, List.map_cons, ← List.singleton_append, List.filter_append, textsFrom]
  cases contentRuns rest <;> rfl

/-- Any other line adds its content to the lines before. -/
theorem textsFrom_other (h : line.1 ≠ .terminator) :
    textsFrom pending (line :: rest) = textsFrom (pending ++ (contentLine line).toList) rest := by
  rw [textsFrom, contentRuns_cons, if_neg (by simp [isTerminator, h]), textsFrom]
  cases contentRuns rest with
  | nil => rfl
  | cons run runs => simp [List.append_assoc]

end TextsFrom

/-! ### What a run reads and hands over -/

namespace ReplEvent

def line? : ReplEvent → Option String
  | .read line => some line
  | .ran .. => none

def text? : ReplEvent → Option String
  | .read _ => none
  | .ran text _ => some text

end ReplEvent

def linesOf (events : List ReplEvent) : List String := events.filterMap ReplEvent.line?

def textsOf (events : List ReplEvent) : List String := events.filterMap ReplEvent.text?

@[simp] theorem linesOf_read (line : String) (events : List ReplEvent) :
    linesOf (.read line :: events) = line :: linesOf events := rfl

@[simp] theorem linesOf_ran (text : String) (status : BatchStatus) (events : List ReplEvent) :
    linesOf (.ran text status :: events) = linesOf events := rfl

@[simp] theorem textsOf_read (line : String) (events : List ReplEvent) :
    textsOf (.read line :: events) = textsOf events := rfl

@[simp] theorem textsOf_ran (text : String) (status : BatchStatus) (events : List ReplEvent) :
    textsOf (.ran text status :: events) = text :: textsOf events := rfl

@[simp] theorem SourceRun.after_events {σ : Type} (event : ReplEvent) (run : SourceRun σ) :
    (run.after event).events = event :: run.events := rfl

section Runs

variable {σ : Type} {runBatch : String → Shell σ → BatchStatus × Shell σ} {st : SourceState σ}
  {pending : List String} {line : String}

@[simp] theorem SourceState.finish_events (st : SourceState σ) : st.finish.events = [] := rfl

/-- After a batch the buffer is empty and the terminator the same. -/
theorem ranBuffer_fresh {status : BatchStatus} {st' : SourceState σ}
    (h : st.ranBuffer runBatch = (status, st')) : st'.buffer = "" ∧ st'.term = st.term := by
  cases h
  exact ⟨rfl, rfl⟩

theorem classify_directive {term : Terminator}
    (h : (if st.buffer = "" then trySetTerminatorDirective (trim line) else none) = some term)
    (lines : List String) :
    classify st.term (st.buffer = "") (line :: lines) =
      (.directive term, line) :: classify term (st.buffer = "") lines := by
  simp only [classify, classifyLine, decide_eq_true_eq, h]

theorem classify_terminator
    (h : (if st.buffer = "" then trySetTerminatorDirective (trim line) else none) = none)
    (hterm : isTerminatorLine (trim line) st.term = true) (lines : List String) :
    classify st.term (st.buffer = "") (line :: lines) =
      (.terminator, line) :: classify st.term true lines := by
  simp only [classify, classifyLine, decide_eq_true_eq, h, hterm, if_true]

theorem classify_content
    (h : (if st.buffer = "" then trySetTerminatorDirective (trim line) else none) = none)
    (hterm : ¬ isTerminatorLine (trim line) st.term = true) (lines : List String) :
    classify st.term (st.buffer = "") (line :: lines) =
      (.content, line) :: classify (st.append line).term ((st.append line).buffer = "") lines := by
  have hfresh : decide ((st.append line).buffer = "") = (decide (st.buffer = "") && line = "") := by
    by_cases hbuffer : st.buffer = "" <;> simp [SourceState.append, hbuffer]
  simp only [classify, classifyLine, decide_eq_true_eq, h, hterm, hfresh]
  rfl

theorem buffer_append (h : st.buffer = batchText pending) (line : String) :
    (st.append line).buffer = batchText (pending ++ [line]) := by
  rw [batchText_append, SourceState.append, ← h]

/-- The batches handed over are those of the lines read. -/
theorem runSource_texts (lines : List String) (h : st.buffer = batchText pending) :
    textsOf (runSource runBatch lines st).events = textsFrom pending
      (classify st.term (st.buffer = "") (linesOf (runSource runBatch lines st).events)) := by
  fun_induction runSource runBatch lines st generalizing pending with
  | case1 st hbuffer =>
      rw [SourceState.finish_events]
      show [] = textsFrom pending []
      rw [textsFrom_nil, ← h, hbuffer]
      rfl
  | case2 st hbuffer status st' hran =>
      simp only [SourceRun.after_events, SourceState.finish_events, textsOf_ran, linesOf_ran]
      show [st.buffer] = textsFrom pending []
      rw [textsFrom_nil, ← h]
      simp [hbuffer]
  | case3 line rest st term hdirective ih =>
      rw [SourceRun.after_events, textsOf_read, linesOf_read, classify_directive hdirective,
        textsFrom_other _ _ (by simp), ih h]
      simp [contentLine]
  | case4 line rest st hnone hterm hbuffer ih =>
      rw [SourceRun.after_events, textsOf_read, linesOf_read, classify_terminator hnone hterm,
        textsFrom_terminator _ _ rfl, @ih [] hbuffer, ← h, hbuffer]
      rfl
  | case5 line rest st hnone hterm hbuffer status st' hran hstop =>
      simp only [SourceRun.after_events, SourceState.finish_events, textsOf_read, textsOf_ran,
        linesOf_read, linesOf_ran]
      rw [classify_terminator hnone hterm, textsFrom_terminator _ _ rfl, ← h]
      simp [hbuffer, linesOf, textsOf, classify, textsFrom_nil, batchText, joinWith]
  | case6 line rest st hnone hterm hbuffer status st' hran hstop ih =>
      obtain ⟨hempty, hsame⟩ := ranBuffer_fresh hran
      have hrest := @ih [] hempty
      simp only [SourceRun.after_events, textsOf_read, textsOf_ran, linesOf_read, linesOf_ran]
      rw [classify_terminator hnone hterm, textsFrom_terminator _ _ rfl, ← h, hrest, hsame, hempty]
      simp [hbuffer]
  | case7 line rest st hnone hterm ih =>
      rw [SourceRun.after_events, textsOf_read, linesOf_read, classify_content hnone hterm,
        textsFrom_other _ _ (by simp), ih (buffer_append h line)]
      rfl

/-- All lines are read, unless the last thing that happens is a batch that stops
the shell. -/
theorem runSource_reads (lines : List String) (st : SourceState σ) :
    ∃ unread, lines = linesOf (runSource runBatch lines st).events ++ unread ∧
      (unread = [] ∨ ∃ before text status, status.stops = true ∧
        (runSource runBatch lines st).events = before ++ [.ran text status]) := by
  fun_induction runSource runBatch lines st with
  | case1 st hbuffer => exact ⟨[], rfl, .inl rfl⟩
  | case2 st hbuffer status st' hran => exact ⟨[], rfl, .inl rfl⟩
  | case3 line rest st term hdirective ih =>
      obtain ⟨unread, hlines, hlast⟩ := ih
      refine ⟨unread, congrArg (line :: ·) hlines, hlast.imp_right ?_⟩
      rintro ⟨before, text, status, hstop, hevents⟩
      refine ⟨.read line :: before, text, status, hstop, ?_⟩
      rw [SourceRun.after_events, hevents]
      rfl
  | case4 line rest st hnone hterm hbuffer ih =>
      obtain ⟨unread, hlines, hlast⟩ := ih
      refine ⟨unread, congrArg (line :: ·) hlines, hlast.imp_right ?_⟩
      rintro ⟨before, text, status, hstop, hevents⟩
      refine ⟨.read line :: before, text, status, hstop, ?_⟩
      rw [SourceRun.after_events, hevents]
      rfl
  | case5 line rest st hnone hterm hbuffer status st' hran hstop =>
      exact ⟨rest, rfl, .inr ⟨[.read line], st.buffer, status, hstop, rfl⟩⟩
  | case6 line rest st hnone hterm hbuffer status st' hran hstop ih =>
      obtain ⟨unread, hlines, hlast⟩ := ih
      refine ⟨unread, congrArg (line :: ·) hlines, hlast.imp_right ?_⟩
      rintro ⟨before, text, status', hstop', hevents⟩
      refine ⟨.read line :: .ran st.buffer status :: before, text, status', hstop', ?_⟩
      rw [SourceRun.after_events, SourceRun.after_events, hevents]
      rfl
  | case7 line rest st hnone hterm ih =>
      obtain ⟨unread, hlines, hlast⟩ := ih
      refine ⟨unread, congrArg (line :: ·) hlines, hlast.imp_right ?_⟩
      rintro ⟨before, text, status, hstop, hevents⟩
      refine ⟨.read line :: before, text, status, hstop, ?_⟩
      rw [SourceRun.after_events, hevents]
      rfl

/-- Nothing happens after a batch that stops the shell. -/
theorem runSource_stops (lines : List String) (st : SourceState σ) {before after : List ReplEvent}
    {text : String} {status : BatchStatus} (hstop : status.stops = true)
    (h : (runSource runBatch lines st).events = before ++ .ran text status :: after) :
    after = [] := by
  fun_induction runSource runBatch lines st generalizing before with
  | case1 st hbuffer => simp at h
  | case2 st hbuffer status' st' hran =>
      rw [SourceRun.after_events, SourceState.finish_events] at h
      cases before with
      | nil => exact (List.cons.inj h).2.symm
      | cons event before => simp at h
  | case3 line rest st term hdirective ih =>
      cases before with
      | nil => simp at h
      | cons event before => exact ih (List.cons.inj h).2
  | case4 line rest st hnone hterm hbuffer ih =>
      cases before with
      | nil => simp at h
      | cons event before => exact ih (List.cons.inj h).2
  | case5 line rest st hnone hterm hbuffer status' st' hran hgoes =>
      rw [SourceRun.after_events, SourceRun.after_events, SourceState.finish_events] at h
      match before with
      | [] => simp at h
      | [event] => exact (List.cons.inj (List.cons.inj h).2).2.symm
      | event :: event' :: before => simp at h
  | case6 line rest st hnone hterm hbuffer status' st' hran hgoes ih =>
      match before with
      | [] => simp at h
      | [event] =>
          -- the batch that went on is not the one that stops
          have hsame := (List.cons.inj (List.cons.inj h).2).1
          cases hsame
          exact absurd hstop hgoes
      | event :: event' :: before => exact ih (List.cons.inj (List.cons.inj h).2).2
  | case7 line rest st hnone hterm ih =>
      cases before with
      | nil => simp at h
      | cons event before => exact ih (List.cons.inj h).2

theorem textsFrom_flush (h : st.buffer = batchText pending) (hbuffer : st.buffer ≠ "") :
    textsFrom pending [] = [st.buffer] := by
  rw [textsFrom_nil, ← h]
  simp [hbuffer]

theorem textsFrom_nil_nil : textsFrom [] [] = [] := rfl

/-- A batch is handed over as soon as its terminator is read: what has been
handed over by then is what the lines read by then come to. -/
theorem runSource_atOnce (lines : List String) (h : st.buffer = batchText pending)
    {before after : List ReplEvent} {text : String} {status : BatchStatus}
    (hevents : (runSource runBatch lines st).events = before ++ .ran text status :: after) :
    textsOf before ++ [text] =
      textsFrom pending (classify st.term (st.buffer = "") (linesOf before)) := by
  fun_induction runSource runBatch lines st generalizing pending before with
  | case1 st hbuffer => simp at hevents
  | case2 st hbuffer status' st' hran =>
      rw [SourceRun.after_events, SourceState.finish_events] at hevents
      cases before with
      | nil =>
          cases (List.cons.inj hevents).1
          exact (textsFrom_flush h hbuffer).symm
      | cons event before => simp at hevents
  | case3 line rest st term hdirective ih =>
      cases before with
      | nil => simp at hevents
      | cons event before =>
          obtain ⟨rfl, hrest⟩ := List.cons.inj hevents
          rw [linesOf_read, textsOf_read, classify_directive hdirective,
            textsFrom_other _ _ (by simp), ih h hrest]
          simp [contentLine]
  | case4 line rest st hnone hterm hbuffer ih =>
      cases before with
      | nil => simp at hevents
      | cons event before =>
          obtain ⟨rfl, hrest⟩ := List.cons.inj hevents
          rw [linesOf_read, textsOf_read, classify_terminator hnone hterm,
            textsFrom_terminator _ _ rfl, @ih [] hbuffer _ hrest, ← h, hbuffer]
          rfl
  | case5 line rest st hnone hterm hbuffer status' st' hran hstop =>
      rw [SourceRun.after_events, SourceRun.after_events, SourceState.finish_events] at hevents
      match before with
      | [] => simp at hevents
      | [event] =>
          obtain ⟨rfl, hrest⟩ := List.cons.inj hevents
          cases (List.cons.inj hrest).1
          rw [linesOf_read, textsOf_read, classify_terminator hnone hterm,
            textsFrom_terminator _ _ rfl, ← h]
          simp [hbuffer, linesOf, textsOf, classify, textsFrom_nil_nil]
      | event :: event' :: before => simp at hevents
  | case6 line rest st hnone hterm hbuffer status' st' hran hstop ih =>
      obtain ⟨hempty, hsame⟩ := ranBuffer_fresh hran
      match before with
      | [] => simp at hevents
      | [event] =>
          obtain ⟨rfl, hrest⟩ := List.cons.inj hevents
          cases (List.cons.inj hrest).1
          rw [linesOf_read, textsOf_read, classify_terminator hnone hterm,
            textsFrom_terminator _ _ rfl, ← h]
          simp [hbuffer, linesOf, textsOf, classify, textsFrom_nil_nil]
      | event :: event' :: before =>
          obtain ⟨rfl, hnext⟩ := List.cons.inj hevents
          obtain ⟨rfl, hrest⟩ := List.cons.inj hnext
          have htexts := @ih [] hempty _ hrest
          rw [linesOf_read, linesOf_ran, textsOf_read, textsOf_ran,
            classify_terminator hnone hterm, textsFrom_terminator _ _ rfl, ← h,
            List.cons_append, htexts, hsame, hempty]
          simp [hbuffer]
  | case7 line rest st hnone hterm ih =>
      cases before with
      | nil => simp at hevents
      | cons event before =>
          obtain ⟨rfl, hrest⟩ := List.cons.inj hevents
          rw [linesOf_read, textsOf_read, classify_content hnone hterm,
            textsFrom_other _ _ (by simp), ih (buffer_append h line) hrest]
          rfl

end Runs

end DdbShell
