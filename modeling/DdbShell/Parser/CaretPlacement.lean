import DdbShell.Parser.Diagnostics

/-!
Whether the caret is under the error. The cursor counts a line for each half of
a CRLF and stands behind the last lexeme, while the line shown is found by its
newlines alone and the caret is set back by the length of that lexeme. The two
agree on a token exactly when no carriage return came before its end and it is
on one line; at the end of the input the lexeme is a stale one, and they agree
exactly when a single discarded lexeme stands after the last token, or when
that token ends the text and has more lines than one.
-/

namespace DdbShell

open Flex (Lexeme Covers scan texts tokens)
open Lexer (lex)
open LR (Config)
open Lines

/-! ### The cursor -/

/-- A cursor behind a text. -/
structure Cursor.Behind (cur : Cursor) (text : List Char) : Prop where
  line : cur.line = 1 + text.countP breaksLine
  column : cur.column = 1 + (lastLine breaksLine text).length

theorem Cursor.Behind.advance {cur : Cursor} {text : List Char} (h : cur.Behind text) (c : Char) :
    (cur.advance c).Behind (text ++ [c]) := by
  have hcount : (text ++ [c]).countP breaksLine =
      text.countP breaksLine + if breaksLine c then 1 else 0 := by
    rw [List.countP_append, List.countP_singleton]
  by_cases hc : breaksLine c = true
  · have hadvance : cur.advance c = { cur with line := cur.line + 1, column := 1 } := if_pos hc
    refine ⟨?_, ?_⟩
    · rw [hadvance, hcount, if_pos hc, h.line]
      rfl
    · rw [hadvance, lastLine_concat, if_pos hc]
      rfl
  · have hadvance : cur.advance c = { cur with column := cur.column + 1 } := if_neg hc
    refine ⟨?_, ?_⟩
    · rw [hadvance, hcount, if_neg hc]
      exact h.line
    · rw [hadvance, lastLine_concat, if_neg hc, List.length_append]
      exact congrArg (· + 1) h.column

theorem Cursor.Behind.onToken {cur : Cursor} {text : List Char} (h : cur.Behind text)
    (w : List Char) : (cur.onToken w).Behind (text ++ w) := by
  have hfold : ∀ cur' : Cursor, cur'.Behind text →
      (w.foldl Cursor.advance cur').Behind (text ++ w) := by
    induction w using List.reverseRecOn with
    | nil =>
        intro cur' h'
        rw [List.append_nil]
        exact h'
    | append_singleton w c ih =>
        intro cur' h'
        rw [List.foldl_append, ← List.append_assoc]
        exact (ih cur' h').advance c
  exact hfold _ ⟨h.line, h.column⟩

theorem lastLexeme_onToken (cur : Cursor) (w : List Char) : (cur.onToken w).lastLexeme = w := by
  have hadvance : ∀ (cur : Cursor) (c : Char), (cur.advance c).lastLexeme = cur.lastLexeme := by
    intro cur c
    unfold Cursor.advance
    split <;> rfl
  have hfold : ∀ (v : List Char) (cur : Cursor),
      (v.foldl Cursor.advance cur).lastLexeme = cur.lastLexeme := by
    intro v
    induction v with
    | nil => exact fun _ => rfl
    | cons c v ih => exact fun cur => (ih _).trans (hadvance cur c)
  exact hfold w _

/-- The cursor after some lexemes. -/
def cursorOver (ls : List (Lexeme SymbolType)) (cur : Cursor) : Cursor :=
  ls.foldl (fun cur l => cur.onToken l.text) cur

theorem cursorOver_append (ls ms : List (Lexeme SymbolType)) (cur : Cursor) :
    cursorOver (ls ++ ms) cur = cursorOver ms (cursorOver ls cur) := List.foldl_append

theorem cursorOver_behind (ls : List (Lexeme SymbolType)) :
    (cursorOver ls {}).Behind (texts ls) := by
  induction ls using List.reverseRecOn with
  | nil => exact ⟨rfl, rfl⟩
  | append_singleton ls l ih =>
      have htexts : texts (ls ++ [l]) = texts ls ++ l.text := by simp
      rw [cursorOver_append, htexts]
      exact ih.onToken l.text

theorem lastLexeme_cursorOver (ls : List (Lexeme SymbolType)) (l : Lexeme SymbolType) :
    (cursorOver (ls ++ [l]) {}).lastLexeme = l.text := by
  rw [cursorOver_append]
  exact lastLexeme_onToken _ _

/-! ### The scanner beside the parser -/

/-- What one call of the scanner reads: up to a token, or all that is left. -/
theorem yylex_spec (ls : List (Lexeme SymbolType)) (cur : Cursor) :
    ∃ read, ls = read ++ (yylex ls cur).1 ∧ (yylex ls cur).2 = cursorOver read cur ∧
      ((tokens ls = [] ∧ (yylex ls cur).1 = []) ∨
        ∃ body l t, read = body ++ [l] ∧ l.token = some t ∧
          tokens ls = t :: tokens (yylex ls cur).1) := by
  induction ls generalizing cur with
  | nil => exact ⟨[], rfl, rfl, .inl ⟨rfl, rfl⟩⟩
  | cons l ls ih =>
      cases htoken : l.token with
      | some t =>
          have hlex : yylex (l :: ls) cur = (ls, cur.onToken l.text) := by
            simp only [yylex, htoken]
          have htokens : tokens (l :: ls) = t :: tokens ls := List.filterMap_cons_some htoken
          rw [hlex]
          exact ⟨[l], rfl, rfl, .inr ⟨[], l, t, rfl, htoken, htokens⟩⟩
      | none =>
          have hlex : yylex (l :: ls) cur = yylex ls (cur.onToken l.text) := by
            simp only [yylex, htoken]
          have htokens : tokens (l :: ls) = tokens ls := List.filterMap_cons_none htoken
          obtain ⟨read, hsplit, hcursor, hend⟩ := ih (cur.onToken l.text)
          rw [hlex, htokens]
          refine ⟨l :: read, ?_, hcursor, ?_⟩
          · rw [List.cons_append, ← hsplit]
          · rcases hend with hend | ⟨body, l', t, rfl, hl', hrest⟩
            · exact .inl hend
            · exact .inr ⟨l :: body, l', t, rfl, hl', hrest⟩

/-- The scanner is behind the token its parser looks at, and what it has left
is what that parser has left to read. -/
structure Driver.Tracks (input : List Char) (d : Driver) (scanned : List (Lexeme SymbolType)) :
    Prop where
  split : scan Lexer.rules input = scanned ++ d.unread
  cursor : d.cursor = cursorOver scanned {}
  left : d.batch.phase = .running → tokens d.unread = d.batch.parser.input
  token : d.batch.phase = .running → ∀ t, d.batch.parser.look = .token t →
    ∃ ls l, scanned = ls ++ [l] ∧ l.token = some t
  atEnd : d.batch.phase = .running → d.batch.parser.look = .atEnd → d.unread = []

theorem start_tracks (input : List Char) : (Driver.start input).Tracks input [] := by
  refine ⟨rfl, rfl, fun _ => rfl, ?_, ?_⟩
  · intro _ t hlook
    cases hlook
  · intro _ hlook
    cases hlook

theorem step_of_reads {b : BatchState} (h : b.reads = true) :
    b.phase = .running ∧ b.step = { b with parser := b.parser.read } := by
  simp only [BatchState.reads, Bool.and_eq_true, decide_eq_true_eq] at h
  obtain ⟨⟨hphase, hunread⟩, hneeds⟩ := h
  have hmove : statementGrammar.step SymbolType.kind b.parser = .next b.parser.read := by
    rw [LR.Grammar.step, hunread, hneeds]
    rfl
  refine ⟨hphase, ?_⟩
  simp only [BatchState.step, hphase, hmove]

/-- A batch that goes on after a statement starts the next one afresh. -/
theorem accepted_running {b : BatchState} {tree : ParseTree} {c : Config SymbolType Nonterminal}
    (h : (b.accepted tree c).phase = .running) :
    (b.accepted tree c).parser = Config.fresh c.input := by
  rw [(accepted_of_running h).1]
  rfl

/-- A move that reads nothing leaves the input alone and looks at no other
token. -/
theorem step_of_not_reads {b : BatchState} (h : b.reads = false)
    (hphase : b.step.phase = .running) :
    b.phase = .running ∧ b.step.parser.input = b.parser.input ∧
      (b.step.parser.look = b.parser.look ∨ b.step.parser.look = .unread) := by
  have hrunning : b.phase = .running := by
    by_contra hstopped
    rw [step_stopped hstopped] at hphase
    exact hstopped hphase
  refine ⟨hrunning, ?_⟩
  have hmove := LR.step_cases statementGrammar SymbolType.kind b.parser
  rcases hmove with ⟨hneeds, hlook, -⟩ | ⟨token, hlook, hmove⟩ | ⟨rule, -, -, hmove⟩ | hmove
  · rw [BatchState.reads, hrunning, hlook, hneeds] at h
    cases h
  · have hstep : b.step =
        { b with parser := ⟨.leaf token :: b.parser.stack, .unread, b.parser.input⟩ } := by
      simp only [BatchState.step, hrunning, hmove]
    rw [hstep]
    exact ⟨rfl, .inr rfl⟩
  · rw [LR.Grammar.reduce] at hmove
    split at hmove
    · have hstep : b.step = b.accepted
          (.node rule.lhs (b.parser.stack.take rule.done.length).reverse)
          { b.parser with stack := b.parser.stack.drop rule.done.length } := by
        simp only [BatchState.step, hrunning, hmove]
      rw [hstep] at hphase ⊢
      rw [accepted_running hphase]
      exact ⟨rfl, .inr rfl⟩
    · have hstep : b.step.parser = { b.parser with
          stack := .node rule.lhs (b.parser.stack.take rule.done.length).reverse ::
            b.parser.stack.drop rule.done.length } := by
        simp only [BatchState.step, hrunning, hmove]
      rw [hstep]
      exact ⟨rfl, .inl rfl⟩
  · have hstep : b.step = b.syntaxError b.parser := by
      simp only [BatchState.step, hrunning, hmove]
    rw [hstep] at hphase
    cases hphase

theorem step_tracks {input : List Char} {d : Driver} {scanned : List (Lexeme SymbolType)}
    (h : d.Tracks input scanned) : ∃ scanned', d.step.Tracks input scanned' := by
  cases hreads : d.batch.reads with
  | true =>
      obtain ⟨hphase, hbatch⟩ := step_of_reads hreads
      have hstep : d.step =
          ⟨d.batch.step, (yylex d.unread d.cursor).1, (yylex d.unread d.cursor).2⟩ := by
        rw [Driver.step, hreads]
        rfl
      obtain ⟨read, hsplit, hcursor, hend⟩ := yylex_spec d.unread d.cursor
      rw [h.left hphase] at hend
      have hparser : d.step.batch.parser = d.batch.parser.read := by
        rw [hstep]
        exact congrArg BatchState.parser hbatch
      have hall : scan Lexer.rules input = (scanned ++ read) ++ d.step.unread := by
        rw [h.split, hstep, List.append_assoc, ← hsplit]
      have hcur : d.step.cursor = cursorOver (scanned ++ read) {} := by
        rw [cursorOver_append, ← h.cursor, ← hcursor, hstep]
      refine ⟨scanned ++ read, hall, hcur, ?_, ?_, ?_⟩
      all_goals
        intro _
        rw [hparser, Config.read]
      · rcases hend with ⟨hnil, hrest⟩ | ⟨body, l, t, -, -, htokens⟩
        · rw [hstep, hnil, hrest]
          rfl
        · rw [hstep, htokens]
      · intro t hlook
        rcases hend with ⟨hnil, -⟩ | ⟨body, l, t', rfl, hl, htokens⟩
        · rw [hnil] at hlook
          cases hlook
        · rw [htokens] at hlook
          cases hlook
          exact ⟨scanned ++ body, l, (List.append_assoc ..).symm, hl⟩
      · intro hlook
        rcases hend with ⟨-, hrest⟩ | ⟨body, l, t, -, -, htokens⟩
        · rw [hstep]
          exact hrest
        · rw [htokens] at hlook
          cases hlook
  | false =>
      have hstep : d.step = { d with batch := d.batch.step } := by
        rw [Driver.step, hreads]
        rfl
      rw [hstep]
      refine ⟨scanned, h.split, h.cursor, ?_, ?_, ?_⟩
      all_goals
        intro hphase
        obtain ⟨hrunning, hinput, hlook⟩ := step_of_not_reads hreads hphase
      · rw [hinput]
        exact h.left hrunning
      · intro t ht
        rcases hlook with hlook | hlook
        · exact h.token hrunning t (hlook.symm.trans ht)
        · rw [hlook] at ht
          cases ht
      · intro hend
        rcases hlook with hlook | hlook
        · exact h.atEnd hrunning (hlook.symm.trans hend)
        · rw [hlook] at hend
          cases hend

theorem run_tracks (input : List Char) (n : Nat) :
    ∃ scanned, (Driver.run input n).Tracks input scanned := by
  induction n with
  | zero => exact ⟨[], start_tracks input⟩
  | succ n ih =>
      obtain ⟨scanned, h⟩ := ih
      exact step_tracks h

/-- A syntax error is at the token the parser looks at. -/
theorem look_of_failsAt {b : BatchState} {c : Config SymbolType Nonterminal}
    (h : b.failsAt = some c) :
    b.phase = .running ∧ c.look = b.parser.look ∧ c.input = b.parser.input := by
  unfold BatchState.failsAt at h
  split at h
  · rename_i hphase
    refine ⟨hphase, ?_⟩
    have hmove := LR.step_cases statementGrammar SymbolType.kind b.parser
    split at h
    · rename_i lhs c' haccept
      split at h
      · cases h
      · cases h
        rw [haccept] at hmove
        rcases hmove with ⟨-, -, hmove⟩ | ⟨token, -, hmove⟩ | ⟨rule, -, -, hmove⟩ | hmove
        · cases hmove
        · cases hmove
        · rw [LR.Grammar.reduce] at hmove
          split at hmove
          · obtain ⟨-, rfl⟩ := (LR.Move.accept.injEq ..).mp hmove
            exact ⟨rfl, rfl⟩
          · cases hmove
        · cases hmove
    · cases h
    · cases h
    · cases h
      exact ⟨rfl, rfl⟩
  · cases h
  · cases h

/-- A text without tokens is no statement and no error. -/
theorem failsAt_nil (n : Nat) : (parseBatch [] n).failsAt = none := by
  have hlater : ∀ m, (parseBatch [] (m + 2)).phase = .finished := by
    intro m
    induction m with
    | zero => decide +kernel
    | succ m ih =>
        have hstopped : (parseBatch [] (m + 2)).phase ≠ .running := by
          rw [ih]
          decide
        rw [parseBatch, step_stopped hstopped]
        exact ih
  rcases n with _ | _ | m
  · rfl
  · rfl
  · unfold BatchState.failsAt
    rw [hlater m]

/-! ### The line that is shown -/

/-- The search stops where the last line before a place begins, if it counts
the newlines before that place or there are none behind it. -/
theorem findLine_eq (a b rest : List Char) {n : Nat} (hle : b.countP newline ≤ n)
    (hn : b.countP newline = n ∨ ∀ c ∈ rest, newline c = false) :
    findLine (a ++ (b ++ rest)) n a.length =
      a.length + (b.length - (lastLine newline b).length) := by
  induction n generalizing a b with
  | zero =>
      have hplain : ∀ c ∈ b, newline c = false := fun c hc => by
        simpa using List.countP_eq_zero.mp (Nat.le_zero.mp hle) c hc
      rw [findLine, lastLine_eq_self hplain, Nat.sub_self]
      rfl
  | succ n ih =>
      rw [findLine, List.drop_left]
      rcases plain_or_split newline b with hplain | ⟨line, c, b, rfl, hline, hc⟩
      · have hzero : b.countP newline = 0 := List.countP_eq_zero.mpr fun c hc => by
          simp [hplain c hc]
        have hrest : ∀ c ∈ rest, newline c = false := hn.resolve_left (by omega)
        have hnone : (b ++ rest).findIdx? newline = none :=
          List.findIdx?_eq_none_iff.mpr fun c hc =>
            (List.mem_append.mp hc).elim (hplain c) (hrest c)
        rw [hnone, lastLine_eq_self hplain, Nat.sub_self]
        rfl
      · have hfind : (line ++ c :: b ++ rest).findIdx? newline = some line.length := by
          have hnone : line.findIdx? newline = none := List.findIdx?_eq_none_iff.mpr hline
          rw [List.append_assoc, List.findIdx?_append, hnone, List.cons_append,
            List.findIdx?_cons, hc]
          simp
        have hcount : (line ++ c :: b).countP newline = b.countP newline + 1 := by
          have hzero : line.countP newline = 0 := List.countP_eq_zero.mpr fun d hd => by
            simp [hline d hd]
          rw [List.countP_append, hzero, List.countP_cons_of_pos hc, Nat.zero_add]
        rw [hcount] at hle hn
        have hsearch := ih (a ++ (line ++ [c])) b (by omega) (hn.imp_left (by omega))
        have hshorter := length_lastLine_le newline b
        have hinput : a ++ (line ++ c :: b ++ rest) = a ++ (line ++ [c]) ++ (b ++ rest) := by simp
        have hstart : a.length + line.length + 1 = (a ++ (line ++ [c])).length := by
          simp only [List.length_append, List.length_singleton]
          omega
        rw [hfind, hinput]
        dsimp only
        rw [hstart, hsearch, lastLine_append_cons hc]
        simp only [List.length_append, List.length_cons, List.length_nil]
        omega

theorem chomp_eq_self {line : List Char} (h : '\r' ∉ line) : chomp line = line :=
  if_neg fun hlast => h (List.mem_of_getLast? hlast)

/-- Only one character goes, and only a carriage return. -/
theorem length_lt_chomp {a b : List Char} {c : Char} (hc : c ∈ b) (hne : c ≠ '\r') :
    a.length < (chomp (a ++ b)).length := by
  have hpos := List.length_pos_of_mem hc
  unfold chomp
  split
  · rename_i hlast
    -- the character that goes is not the only one of the second part
    have htwo : b.length ≠ 1 := by
      intro hone
      obtain ⟨d, rfl⟩ := List.length_eq_one_iff.mp hone
      rw [List.getLast?_concat, Option.some_inj] at hlast
      exact hne ((List.mem_singleton.mp hc).trans hlast)
    rw [List.length_dropLast, List.length_append]
    omega
  · rw [List.length_append]
    omega

theorem countP_breaksLine (text : List Char) :
    text.countP breaksLine = text.countP newline + text.count '\r' := by
  induction text with
  | nil => rfl
  | cons c text ih =>
      have hone : ∀ d : Char, (if breaksLine d then 1 else 0) =
          (if newline d then 1 else 0) + if d = '\r' then 1 else 0 := by
        intro d
        by_cases hn : d = '\n'
        · subst hn
          rfl
        · by_cases hr : d = '\r'
          · subst hr
            rfl
          · simp [breaksLine, newline, hn, hr]
      rw [List.countP_cons, List.countP_cons, List.count_cons, ih, hone c]
      simp only [beq_iff_eq]
      omega

/-- A line end of the search is one of the cursor. -/
theorem breaksLine_of_newline {c : Char} (h : newline c = true) : breaksLine c = true := by
  unfold breaksLine
  rw [show c = '\n' by simpa [newline] using h]
  rfl

theorem newline_of_breaksLine {c : Char} (h : breaksLine c = false) : newline c = false := by
  rw [← Bool.not_eq_true] at h ⊢
  exact fun hc => h (breaksLine_of_newline hc)

/-- Without carriage returns the cursor and the search have the same lines. -/
theorem lastLine_breaksLine {text : List Char} (h : '\r' ∉ lastLine newline text) :
    lastLine breaksLine text = lastLine newline text := by
  refine lastLine_congr (fun c => breaksLine_of_newline) ?_
  intro c hc
  obtain ⟨-, -, hplain⟩ := lastLine_spec newline text
  have hn : c ≠ '\n' := by simpa [newline] using hplain c hc
  have hr : c ≠ '\r' := fun heq => h (heq ▸ hc)
  simp [breaksLine, hn, hr]

theorem not_mem_lastLine {text : List Char} {c : Char} (h : c ∉ text) :
    c ∉ lastLine newline text := by
  obtain ⟨front, hsplit, -⟩ := lastLine_spec newline text
  intro hc
  rw [hsplit] at h
  exact h (List.mem_append_right front hc)

/-! ### On a token -/

/-- An error reported at the place between two parts of a text: by the number
of its line, that line, and a caret under the place. -/
def SyntaxError.PointsAt (e : SyntaxError) (before after : List Char) : Prop :=
  e.line = 1 + before.countP newline ∧ e.caret = some (Caret.under before after)

theorem buildCaret_on_token {cur : Cursor} {before w after : List Char}
    (hcur : cur.Behind (before ++ w)) (hlast : cur.lastLexeme = w) (hne : w ≠ [])
    (hbefore : '\r' ∉ before) (hw : ∀ c ∈ w, breaksLine c = false) :
    buildCaret (before ++ (w ++ after)) cur = some (Caret.under before (w ++ after)) := by
  have hplain : ∀ c ∈ w, newline c = false := fun c hc => newline_of_breaksLine (hw c hc)
  have hline : cur.line - 1 = before.countP newline := by
    have hzero : w.countP breaksLine = 0 := List.countP_eq_zero.mpr fun c hc => by simp [hw c hc]
    rw [hcur.line, List.countP_append, hzero, countP_breaksLine,
      List.count_eq_zero.mpr hbefore]
    omega
  have hcolumn : cur.column = 1 + ((lastLine newline before).length + w.length) := by
    rw [hcur.column, lastLine_append hw, lastLine_breaksLine (not_mem_lastLine hbefore),
      List.length_append]
  have hfind : findLine (before ++ (w ++ after)) (before.countP newline) 0 =
      before.length - (lastLine newline before).length := by
    have h := findLine_eq [] before (w ++ after) (Nat.le_refl _) (.inl rfl)
    simpa using h
  have hindent : (lastLine newline before).length <
      (chomp (lastLine newline before ++ firstLine newline (w ++ after))).length := by
    rw [firstLine_append hplain]
    obtain ⟨c, w, rfl⟩ := List.exists_cons_of_ne_nil hne
    refine length_lt_chomp (c := c) (by simp) ?_
    rintro rfl
    exact absurd (hw _ List.mem_cons_self) (by decide)
  have hcol : w.length < cur.column := by omega
  unfold buildCaret Caret.under
  simp only [hline, hfind, firstLine_drop, hlast, if_pos hcol]
  rw [if_neg (by rw [List.isEmpty_iff_length_eq_zero]; omega)]
  congr 2
  omega

/-- On a token the error is reported where it is exactly when no carriage
return comes before the token and the token is on one line. -/
theorem pointsAt_token_iff {cur : Cursor} {before w after : List Char}
    (hcur : cur.Behind (before ++ w)) (hlast : cur.lastLexeme = w) (hne : w ≠ []) :
    (setError (before ++ (w ++ after)) cur).PointsAt before (w ++ after) ↔
      '\r' ∉ before ∧ ∀ c ∈ w, breaksLine c = false := by
  constructor
  · rintro ⟨hline, -⟩
    have hcount : cur.line = 1 + before.countP newline := hline
    rw [hcur.line, List.countP_append, countP_breaksLine] at hcount
    refine ⟨List.count_eq_zero.mp (by omega), ?_⟩
    intro c hc
    have hzero : w.countP breaksLine = 0 := by omega
    simpa using List.countP_eq_zero.mp hzero c hc
  · rintro ⟨hbefore, hw⟩
    refine ⟨?_, buildCaret_on_token hcur hlast hne hbefore hw⟩
    have hzero : w.countP breaksLine = 0 := List.countP_eq_zero.mpr fun c hc => by simp [hw c hc]
    change cur.line = _
    rw [hcur.line, List.countP_append, hzero, countP_breaksLine, List.count_eq_zero.mpr hbefore]
    rfl

/-! ### At the end of the input -/

/-- Every carriage return is the first half of a CRLF. -/
def LineEnds (input : List Char) : Prop :=
  ∀ front rest, input = front ++ '\r' :: rest → rest.head? = some '\n'

theorem LineEnds.lastLine {input : List Char} (h : LineEnds input) :
    '\r' ∉ Lines.lastLine newline input := by
  intro hmem
  obtain ⟨front, hsplit, hplain⟩ := lastLine_spec newline input
  obtain ⟨a, b, hline⟩ := List.mem_iff_append.mp hmem
  have hnext : b.head? = some '\n' := by
    refine h (front ++ a) b ?_
    rw [List.append_assoc, ← hline]
    exact hsplit
  have hnewline : '\n' ∈ Lines.lastLine newline input := by
    rw [hline]
    exact List.mem_append_right a (List.mem_cons_of_mem _ (List.mem_of_head? hnext))
  exact absurd (hplain _ hnewline) (by decide)

/-- At the end of the input the last line is shown, if anything is on it, and
the caret is set back on it by the length of the last lexeme, if that fits. -/
theorem buildCaret_at_end {cur : Cursor} {input : List Char} (hcur : cur.Behind input)
    (hends : LineEnds input) :
    buildCaret input cur =
      if (lastLine newline input).isEmpty then none
      else some ⟨input.length - (lastLine newline input).length, lastLine newline input,
        if cur.lastLexeme.length ≤ (lastLine newline input).length then
          (lastLine newline input).length - cur.lastLexeme.length
        else (lastLine newline input).length⟩ := by
  have hfind : findLine input (cur.line - 1) 0 =
      input.length - (lastLine newline input).length := by
    have hcount : input.countP newline ≤ cur.line - 1 := by
      rw [hcur.line, countP_breaksLine]
      omega
    have h := findLine_eq [] input [] hcount (.inr (by simp))
    simpa using h
  have hline : firstLine newline
      (input.drop (input.length - (lastLine newline input).length)) = lastLine newline input := by
    have h : firstLine newline
        ((input ++ []).drop (input.length - (lastLine newline input).length)) =
          lastLine newline input ++ [] := firstLine_drop input []
    rwa [List.append_nil, List.append_nil] at h
  have hcolumn : cur.column = 1 + (lastLine newline input).length := by
    rw [hcur.column, lastLine_breaksLine hends.lastLine]
  unfold buildCaret
  simp only [hfind, hline, chomp_eq_self hends.lastLine, hcolumn]
  congr 3
  split <;> split <;> omega

/-- The caret is just past a place on the last line exactly when going back by
the last lexeme leads there. -/
theorem caret_at_end_iff {cur : Cursor} {before after : List Char}
    (hcur : cur.Behind (before ++ after)) (hends : LineEnds (before ++ after))
    (hne : lastLine newline before ≠ []) :
    buildCaret (before ++ after) cur = some (Caret.under before after) ↔
      (∀ c ∈ after, newline c = false) ∧
        (if cur.lastLexeme.length ≤ (lastLine newline before).length + after.length then
          (lastLine newline before).length + after.length - cur.lastLexeme.length
        else (lastLine newline before).length + after.length) =
          (lastLine newline before).length := by
  have hshort := length_lastLine_le newline before
  by_cases hplain : ∀ c ∈ after, newline c = false
  · have hlast : lastLine newline (before ++ after) = lastLine newline before ++ after :=
      lastLine_append hplain before
    have hreturn := hends.lastLine
    have hnil : (lastLine newline before ++ after).isEmpty = false := by simp [hne]
    rw [hlast] at hreturn
    rw [buildCaret_at_end hcur hends, hlast, hnil, and_iff_right hplain]
    have hstart : (before ++ after).length - (lastLine newline before ++ after).length =
        before.length - (lastLine newline before).length := by
      rw [List.length_append, List.length_append]
      omega
    rw [Caret.under, firstLine_eq_self hplain, chomp_eq_self hreturn, hstart, List.length_append]
    simp only [Bool.false_eq_true, if_false, Option.some.injEq, Caret.mk.injEq, true_and]
  · obtain ⟨c, hc, hend⟩ : ∃ c ∈ after, newline c = true := by simpa using hplain
    have hlast : lastLine newline (before ++ after) = lastLine newline after :=
      lastLine_append_of_mem hc hend before
    have hlater := length_lastLine_lt hc hend
    refine iff_of_false ?_ (fun h => hplain h.1)
    intro hcaret
    rw [buildCaret_at_end hcur hends, hlast] at hcaret
    split at hcaret
    · cases hcaret
    · have hstart := congrArg Caret.lineStart (Option.some.inj hcaret)
      simp only [Caret.under, List.length_append] at hstart
      omega

/-- Only what is discarded ends in a newline. -/
theorem token_getLast {w : List Char} {r : Flex.Rule SymbolType}
    (hr : Flex.firstRule Lexer.rules w = some r) (htoken : (r.action w).isSome = true) :
    w.getLast? ≠ some '\n' := by
  obtain ⟨hmem, hmatch⟩ := Flex.firstRule_some hr
  have hrules : ∀ r ∈ Lexer.rules, r.action = Lexer.discard ∨ r.pattern = Lexer.dquoted ∨
      r.pattern.uses '\n' = false := by
    simp only [Lexer.rules, List.forall_mem_cons, List.not_mem_nil, false_implies, implies_true,
      and_true]
    exact ⟨.inl trivial, .inl trivial, .inl trivial, .inr (.inr rfl), .inr (.inl trivial),
      .inr (.inr rfl),
      .inr (.inr rfl), .inr (.inr rfl), .inr (.inr rfl), .inr (.inr rfl), .inr (.inr rfl),
      .inr (.inr rfl), .inr (.inr rfl), .inr (.inr rfl), .inr (.inr rfl), .inr (.inr rfl),
      .inr (.inr rfl), .inr (.inr rfl)⟩
  intro hlast
  rcases hrules r hmem with hdiscard | hquoted | huses
  · rw [hdiscard] at htoken
    cases htoken
  · rw [hquoted] at hmatch
    obtain ⟨a, -, x, hx, rfl⟩ := Flex.Pattern.mem_seq.mp hmatch
    obtain ⟨b, -, q, hq, rfl⟩ := Flex.Pattern.mem_seq.mp hx
    rw [Flex.Pattern.mem_char.mp hq, ← List.append_assoc, List.getLast?_concat] at hlast
    cases hlast
  · rw [Flex.Pattern.uses_of_mem hmatch (List.mem_of_getLast? hlast)] at huses
    cases huses

/-- Something of a token is on the line where it ends. -/
theorem lastLine_token_ne_nil {w : List Char} (hne : w ≠ []) (hlast : w.getLast? ≠ some '\n')
    (before : List Char) : lastLine newline (before ++ w) ≠ [] := by
  obtain ⟨v, c, rfl⟩ := List.eq_nil_or_concat w |>.resolve_left hne
  rw [List.concat_eq_append, List.getLast?_concat] at hlast
  have hc : newline c = false := by
    simpa [newline] using fun heq => hlast (congrArg some heq)
  rw [List.concat_eq_append, ← List.append_assoc, lastLine_concat, hc]
  simp

/-- At the end of the input the last lexeme is a stale one. Going back by it
leads behind the last token if it is the only lexeme after that, and not going
back does if it is that token, with more lines than one. -/
theorem caret_past_token_iff {before : List (Lexeme SymbolType)} {l : Lexeme SymbolType}
    {after : List (Lexeme SymbolType)} (hends : LineEnds (texts (before ++ l :: after)))
    (htexts : ∀ m ∈ before ++ l :: after, m.text ≠ []) (hlast : l.text.getLast? ≠ some '\n') :
    buildCaret (texts (before ++ l :: after)) (cursorOver (before ++ l :: after) {}) =
        some (Caret.under (texts before ++ l.text) (texts after)) ↔
      (∀ c ∈ texts after, newline c = false) ∧
        (after = [] ∧ '\n' ∈ l.text ∨ ∃ d, after = [d]) := by
  have hbehind := cursorOver_behind (before ++ l :: after)
  have hsplit : texts (before ++ l :: after) = (texts before ++ l.text) ++ texts after := by simp
  have hl : l.text ≠ [] := htexts l (by simp)
  have hend := lastLine_token_ne_nil hl hlast (texts before)
  have hpos := List.length_pos_of_ne_nil hend
  rw [hsplit] at hends hbehind ⊢
  rw [caret_at_end_iff hbehind hends hend]
  refine and_congr_right ?_
  intro hplain
  rcases List.eq_nil_or_concat after with rfl | ⟨after, d, rfl⟩
  · have hlexeme : (cursorOver (before ++ [l]) {}).lastLexeme = l.text :=
      lastLexeme_cursorOver before l
    have hlpos := List.length_pos_of_ne_nil hl
    have hfits : l.text.length ≤ (lastLine newline (texts before ++ l.text)).length ↔
        '\n' ∉ l.text := by
      constructor
      · intro hle hmem
        rw [lastLine_append_of_mem hmem rfl] at hle
        exact absurd (length_lastLine_lt hmem (rfl : newline '\n' = true)) (by omega)
      · intro hmem
        have hl' : ∀ c ∈ l.text, newline c = false := fun c hc => by
          simpa [newline] using fun heq : c = '\n' => hmem (heq ▸ hc)
        rw [lastLine_append hl', List.length_append]
        omega
    rw [hlexeme, Flex.texts_nil, List.length_nil, Nat.add_zero]
    by_cases hmem : '\n' ∈ l.text
    · rw [if_neg (fun hle => hfits.mp hle hmem)]
      simp [hmem]
    · rw [if_pos (hfits.mpr hmem)]
      refine iff_of_false (by omega) ?_
      rintro (⟨-, h⟩ | ⟨d, h⟩)
      · exact hmem h
      · cases h
  · rw [List.concat_eq_append] at *
    have hlexeme : (cursorOver (before ++ l :: (after ++ [d])) {}).lastLexeme = d.text := by
      have h := lastLexeme_cursorOver (before ++ l :: after) d
      rwa [List.append_assoc, List.cons_append] at h
    have hlength : (texts (after ++ [d])).length = (texts after).length + d.text.length := by
      simp
    rw [hlexeme, hlength, if_pos (by omega)]
    constructor
    · intro hback
      have hnil : texts after = [] := List.length_eq_zero_iff.mp (by omega)
      refine .inr ⟨d, ?_⟩
      cases after with
      | nil => rfl
      | cons m after =>
          rw [Flex.texts_cons] at hnil
          exact absurd (List.append_eq_nil_iff.mp hnil).1 (htexts m (by simp))
    · rintro (⟨h, -⟩ | ⟨m, h⟩)
      · simp at h
      · have hnil : after = [] := by
          have hone := congrArg List.length h
          simp only [List.length_append, List.length_singleton] at hone
          exact List.length_eq_zero_iff.mp (by omega)
        rw [hnil, Flex.texts_nil, List.length_nil]
        omega

/-! ### Every error of a run -/

theorem scan_texts {ls : List (Lexeme SymbolType)} {input : List Char}
    (h : scan Lexer.rules input = ls) : texts ls = input := by
  rw [← h, Flex.texts_scan Lexer.covers]

/-- Every syntax error of a batch on a token is reported where the token begins
exactly when no carriage return comes before the token and no line ends in it.
At the end of the input the caret is just past the last token exactly when one
discarded lexeme without a newline follows that token, or when the token ends
the text and has more lines than one. -/
theorem syntaxError_pointsAt_iff {input : List Char} {n : Nat}
    {c : Config SymbolType Nonterminal} (hfail : (Driver.run input n).batch.failsAt = some c) :
    (∀ token, c.look = .token token → ∃ ls l ms,
      scan Lexer.rules input = ls ++ l :: ms ∧ l.token = some token ∧ tokens ms = c.input ∧
      ((setError input (Driver.run input n).cursor).PointsAt (texts ls) (l.text ++ texts ms) ↔
        '\r' ∉ texts ls ∧ ∀ d ∈ l.text, breaksLine d = false)) ∧
    (c.look = .atEnd → LineEnds input → ∃ ls l ms,
      scan Lexer.rules input = ls ++ l :: ms ∧ l.token.isSome = true ∧ tokens ms = [] ∧
      ((setError input (Driver.run input n).cursor).caret =
          some (Caret.under (texts ls ++ l.text) (texts ms)) ↔
        (∀ d ∈ texts ms, newline d = false) ∧
          (ms = [] ∧ '\n' ∈ l.text ∨ ∃ d, ms = [d]))) := by
  obtain ⟨scanned, htracks⟩ := run_tracks input n
  obtain ⟨hphase, hlook, hinput⟩ := look_of_failsAt hfail
  constructor
  · intro token htoken
    obtain ⟨ls, l, rfl, hl⟩ := htracks.token hphase token (hlook.symm.trans htoken)
    have hsplit : scan Lexer.rules input = ls ++ l :: (Driver.run input n).unread := by
      rw [htracks.split, List.append_assoc]
      rfl
    refine ⟨ls, l, (Driver.run input n).unread, hsplit, hl, ?_, ?_⟩
    · rw [hinput]
      exact htracks.left hphase
    · have hbehind := cursorOver_behind (ls ++ [l])
      have hwhole : texts ls ++ (l.text ++ texts (Driver.run input n).unread) = input := by
        rw [← Flex.texts_cons, ← Flex.texts_append]
        exact scan_texts hsplit
      rw [Flex.texts_append, Flex.texts_cons, Flex.texts_nil, List.append_nil] at hbehind
      have hne := (Flex.scan_lexeme Lexer.covers hsplit).1
      have hiff : (setError (texts ls ++ (l.text ++ texts (Driver.run input n).unread))
          (cursorOver (ls ++ [l]) {})).PointsAt _ _ ↔ _ :=
        pointsAt_token_iff hbehind (lastLexeme_cursorOver ls l) hne
      rw [htracks.cursor]
      rwa [hwhole] at hiff
  · intro hend hlines
    have hunread := htracks.atEnd hphase (hlook.symm.trans hend)
    have hscan : scan Lexer.rules input = scanned := by
      rw [htracks.split, hunread, List.append_nil]
    have htokens : tokens scanned ≠ [] := by
      intro hnone
      have hnil : lex input = [] := by rw [lex, hscan, hnone]
      rw [Driver.run_batch, hnil, failsAt_nil] at hfail
      cases hfail
    obtain ⟨ls, l, ms, rfl, hl, hms⟩ := Flex.exists_last_token htokens
    refine ⟨ls, l, ms, hscan, hl, hms, ?_⟩
    have hlexemes : ∀ m ∈ ls ++ l :: ms, m.text ≠ [] := by
      intro m hm
      obtain ⟨xs, ys, hsplit⟩ := List.mem_iff_append.mp hm
      exact (Flex.scan_lexeme Lexer.covers (hscan.trans hsplit)).1
    obtain ⟨-, r, hr, hrule⟩ := Flex.scan_lexeme Lexer.covers hscan
    have hlast : l.text.getLast? ≠ some '\n' := token_getLast hr (by rw [← hrule, hl])
    have hiff := caret_past_token_iff (by rw [scan_texts hscan]; exact hlines) hlexemes hlast
    rw [scan_texts hscan] at hiff
    rw [htracks.cursor]
    exact hiff

theorem lineEnds_of_not_mem {input : List Char} (h : '\r' ∉ input) : LineEnds input := by
  rintro front rest rfl
  exact absurd (List.mem_append_right front List.mem_cons_self) h

/-- A stray parenthesis on an indented second line, and a command cut short. -/
theorem syntaxError_pointsAt_iff_strays :
    (∃ ls l ms, scan Lexer.rules "\n\t)".toList = ls ++ l :: ms ∧
      l.token = some ⟨.character ')', ")"⟩ ∧ tokens ms = [] ∧
      ((setError "\n\t)".toList (Driver.run "\n\t)".toList 1).cursor).PointsAt
          (texts ls) (l.text ++ texts ms) ↔
        '\r' ∉ texts ls ∧ ∀ d ∈ l.text, breaksLine d = false)) ∧
    ∃ ls l ms, scan Lexer.rules "drop".toList = ls ++ l :: ms ∧
      l.token.isSome = true ∧ tokens ms = [] ∧
      ((setError "drop".toList (Driver.run "drop".toList 3).cursor).caret =
          some (Caret.under (texts ls ++ l.text) (texts ms)) ↔
        (∀ d ∈ texts ms, newline d = false) ∧
          (ms = [] ∧ '\n' ∈ l.text ∨ ∃ d, ms = [d])) := by
  have hparen : (Driver.run "\n\t)".toList 1).batch.failsAt =
      some ⟨[], .token ⟨.character ')', ")"⟩, []⟩ := rfl
  have hdrop : (Driver.run "drop".toList 3).batch.failsAt =
      some ⟨[.leaf ⟨.kind .kDrop, "drop"⟩], .atEnd, []⟩ := rfl
  exact ⟨(syntaxError_pointsAt_iff hparen).1 _ rfl,
    (syntaxError_pointsAt_iff hdrop).2 rfl (lineEnds_of_not_mem (by decide))⟩

/-- With CRLF line ends the third line is shown for a parenthesis on the
second, and at the end of the input the caret is under the last token. -/
theorem syntaxError_misplaced :
    let crlf := "drop\r\n)\r\nfoo;".toList
    let short := "drop".toList
    (Driver.run crlf 3).batch.failsAt.map Config.look = some (.token ⟨.character ')', ")"⟩) ∧
      (scan Lexer.rules crlf).map Lexeme.text =
        ["drop".toList, "\r\n".toList, ")".toList, "\r\n".toList, "foo".toList,
          ";".toList] ∧
      (setError crlf (Driver.run crlf 3).cursor).line = 3 ∧
      (setError crlf (Driver.run crlf 3).cursor).caret = some ⟨9, "foo;".toList, 0⟩ ∧
      ¬(setError crlf (Driver.run crlf 3).cursor).PointsAt "drop\r\n".toList
        ")\r\nfoo;".toList ∧
      (Driver.run short 3).batch.failsAt.map Config.look = some .atEnd ∧
      (setError short (Driver.run short 3).cursor).caret = some ⟨0, short, 0⟩ ∧
      Caret.under short [] = ⟨0, short, 4⟩ := by
  intro crlf short
  have hline : (setError crlf (Driver.run crlf 3).cursor).line = 3 := by decide +kernel
  refine ⟨by decide +kernel, by decide +kernel, hline, by decide +kernel, ?_, by decide +kernel,
    by decide +kernel, by decide +kernel⟩
  rintro ⟨hpoints, -⟩
  rw [hline] at hpoints
  exact absurd hpoints (by decide +kernel)

end DdbShell
