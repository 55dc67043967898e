import DdbShell.Parser.StatementGrammar

/-!
`Session::parse_batch`: one fresh parser per statement over a scanner that
lives for the whole batch. The state machine here takes one move of the
current parser at a time. When a parser accepts, the next one starts from what
the scanner has left; a token the old parser had read ahead goes with it.
-/

namespace DdbShell

open LR (Config Tree)

abbrev ParseTree := Tree SymbolType Nonterminal

/-! ### The batch loop -/

mutual

/-- The one semantic error an action records: a SELECT, at any depth, with
both a RETURN CONSUMED CAPACITY and a rate limit. -/
def semanticError : ParseTree → Bool
  | .leaf _ => false
  | .node lhs children =>
      (match lhs, children with
        | .selectCommand, [_, _, _, _, _, _, _, .node _ (_ :: _), .node _ (_ :: _)] => true
        | _, _ => false) || semanticErrorIn children

def semanticErrorIn : List ParseTree → Bool
  | [] => false
  | tree :: trees => semanticError tree || semanticErrorIn trees

end

/-- Error recovery: tokens are thrown away up to the `;` that ends the failed
statement, or to an end of the input in the middle of the text, where the
parser gives up. The pair is what was skipped and what is left. -/
def recover : List SymbolType → List SymbolType × List SymbolType
  | [] => ([], [])
  | token :: input =>
      if token.kind = .kind .semicolon ∨ token.kind = .endOfInput then ([token], input)
      else (token :: (recover input).1, (recover input).2)

inductive Phase where
  | running
  | finished
  /-- with the tokens of the statement reported in the error -/
  | failed (statement : List SymbolType)
  deriving DecidableEq, Repr

structure BatchState where
  statements : List ParseTree
  phase : Phase
  parser : Config SymbolType Nonterminal

namespace BatchState

def start (text : List SymbolType) : BatchState := ⟨[], .running, Config.fresh text⟩

/-- A syntax error: the parser recovers, the batch stops. -/
def syntaxError (b : BatchState) (c : Config SymbolType Nonterminal) : BatchState :=
  let (skipped, left) := recover (c.look.toList ++ c.input)
  { b with
    phase := .failed (Tree.yieldAll c.stack.reverse ++ skipped)
    parser := Config.fresh left }

/-- The batch goes on behind a statement. -/
def returned (b : BatchState) (tree : ParseTree) (c : Config SymbolType Nonterminal) :
    BatchState :=
  { b with statements := b.statements ++ [tree], parser := Config.fresh c.input }

section Returned

variable (b : BatchState) (tree : ParseTree) (c : Config SymbolType Nonterminal)

@[simp]
theorem returned_statements : (b.returned tree c).statements = b.statements ++ [tree] := rfl

@[simp]
theorem returned_phase : (b.returned tree c).phase = b.phase := rfl

@[simp]
theorem returned_rest : (b.returned tree c).parser = Config.fresh c.input := rfl

end Returned

/-- The end of `Driver::parse_next` and the loop of `parse_batch` around it.
The empty alternative of `input` is the only one without YYACCEPT, so after it
the end of the input must come. Where that is a character in the middle of the
text, the scanner has not seen the end, and the empty statement counts. -/
def accepted (b : BatchState) (tree : ParseTree) (c : Config SymbolType Nonterminal) :
    BatchState :=
  match tree, c.look with
  | .node _ [], .atEnd => { b with phase := .finished, parser := Config.fresh c.input }
  | .node _ [], .unread => b.syntaxError c
  | .node _ [], .token token =>
      if token.kind = .endOfInput then b.returned tree c else b.syntaxError c
  | _, _ =>
      if semanticError tree then
        { b with phase := .failed tree.yield, parser := Config.fresh c.input }
      else b.returned tree c

def step (b : BatchState) : BatchState :=
  match b.phase with
  | .running =>
      match statementGrammar.step SymbolType.kind b.parser with
      | .next parser => { b with parser := parser }
      | .accept tree parser => b.accepted tree parser
      | .error => b.syntaxError b.parser
  | .finished | .failed _ => b

end BatchState

/-- The state of `parse_batch` after so many moves. -/
def parseBatch (text : List SymbolType) : Nat → BatchState
  | 0 => .start text
  | n + 1 => (parseBatch text n).step

/-- What a batch does with a derivation that is not empty: it fails, or goes on
behind it. -/
theorem accepted_nonempty (b : BatchState) {tree : ParseTree}
    (htree : ∀ lhs, tree ≠ .node lhs []) (c : Config SymbolType Nonterminal) :
    b.accepted tree c =
      if semanticError tree then
        { b with phase := .failed tree.yield, parser := Config.fresh c.input }
      else b.returned tree c := by
  unfold BatchState.accepted
  split
  · exact absurd rfl (htree _)
  · exact absurd rfl (htree _)
  · exact absurd rfl (htree _)
  · rfl

/-- A batch that goes on behind a derivation has returned it: as a statement, or
as the empty one in front of a character taken for the end of the input. -/
theorem accepted_cases (b : BatchState) (tree : ParseTree) (c : Config SymbolType Nonterminal) :
    (((b.accepted tree c).phase = .finished ∧ c.look = .atEnd ∨
        ∃ statement, (b.accepted tree c).phase = .failed statement) ∧
      (b.accepted tree c).statements = b.statements ∧
      ∃ left, (b.accepted tree c).parser = Config.fresh left) ∨
    (b.accepted tree c = b.returned tree c ∧ semanticError tree = false ∧
      ∀ lhs, tree = .node lhs [] →
        ∃ token, c.look = .token token ∧ token.kind = .endOfInput) := by
  by_cases htree : ∃ lhs, tree = .node lhs []
  · obtain ⟨lhs, rfl⟩ := htree
    cases hlook : c.look with
    | atEnd =>
        have haccepted : b.accepted (.node lhs []) c =
            { b with phase := .finished, parser := Config.fresh c.input } := by
          simp only [BatchState.accepted, hlook]
        rw [haccepted]
        exact .inl ⟨.inl ⟨rfl, rfl⟩, rfl, _, rfl⟩
    | unread =>
        have haccepted : b.accepted (.node lhs []) c = b.syntaxError c := by
          simp only [BatchState.accepted, hlook]
        rw [haccepted]
        exact .inl ⟨.inr ⟨_, rfl⟩, rfl, _, rfl⟩
    | token token =>
        by_cases hkind : token.kind = .endOfInput
        · have haccepted : b.accepted (.node lhs []) c = b.returned (.node lhs []) c := by
            simp only [BatchState.accepted, hlook, if_pos hkind]
          have hsemantic : semanticError (.node lhs []) = false := by
            simp [semanticError, semanticErrorIn]
          exact .inr ⟨haccepted, hsemantic, fun _ _ => ⟨token, rfl, hkind⟩⟩
        · have haccepted : b.accepted (.node lhs []) c = b.syntaxError c := by
            simp only [BatchState.accepted, hlook, if_neg hkind]
          rw [haccepted]
          exact .inl ⟨.inr ⟨_, rfl⟩, rfl, _, rfl⟩
  · have hnonempty : ∀ lhs, tree ≠ .node lhs [] := fun lhs heq => htree ⟨lhs, heq⟩
    rw [accepted_nonempty b hnonempty]
    split
    · exact .inl ⟨.inr ⟨_, rfl⟩, rfl, _, rfl⟩
    · rename_i hsemantic
      refine .inr ⟨rfl, ?_, fun lhs heq => absurd heq (hnonempty lhs)⟩
      simpa using hsemantic

theorem accepted_of_running {b : BatchState} {tree : ParseTree}
    {c : Config SymbolType Nonterminal} (h : (b.accepted tree c).phase = .running) :
    b.accepted tree c = b.returned tree c ∧ semanticError tree = false ∧
      ∀ lhs, tree = .node lhs [] →
        ∃ token, c.look = .token token ∧ token.kind = .endOfInput := by
  refine (accepted_cases b tree c).resolve_left ?_
  rintro ⟨⟨hphase, -⟩ | ⟨statement, hphase⟩, -⟩
  · rw [h] at hphase
    cases hphase
  · rw [h] at hphase
    cases hphase

/-! ### Where the text goes -/

namespace Phase

/-- The tokens of the failed statement, if there is one. -/
def tokens : Phase → List SymbolType
  | .failed statement => statement
  | .running | .finished => []

end Phase

def statementTokens (statements : List ParseTree) : List SymbolType :=
  statements.flatMap Tree.yield

/-- The tokens in returned statements, in the failed one and still unread. -/
def BatchState.tokens (b : BatchState) : List SymbolType :=
  statementTokens b.statements ++ (b.phase.tokens ++ b.parser.text)

def EndsInSemicolon (statement : ParseTree) : Prop :=
  ∃ body token, statement.yield = body ++ [token] ∧ token.kind = .kind .semicolon

/-- Every statement is a derivation of exactly the tokens since the one before
it, up to a `;` or the end of the text, and no token is anywhere else. -/
structure BatchFaithful (text : List SymbolType) (b : BatchState) : Prop where
  derived : ∀ statement ∈ b.statements,
    statement.Valid SymbolType.kind statementGrammar ∧
      statement.symbol SymbolType.kind = nt .input
  written : ∀ statement ∈ b.statements, ∀ lhs, statement ≠ .node lhs []
  complete : b.tokens = text
  ended : ∀ before statement after, b.statements = before ++ statement :: after →
    EndsInSemicolon statement ∨
      statementTokens after ++ (b.phase.tokens ++ b.parser.text) = []
  finished : b.phase = .finished → b.parser.text = []

/-- A whole command has been recognised, with no `;` after it yet. -/
def AwaitsSemicolon (symbols : List Symbol) : Prop :=
  symbols = [nt .command] ∨ symbols = [nt .explainable, tok .kExplain]

/-- Where a whole command has been recognised, the next token, if there is
one, is a `;`, and no statement begins with a character that is taken for the
end of the input. -/
structure AtBoundary (b : BatchState) : Prop where
  behind : b.phase = .running → AwaitsSemicolon (b.parser.symbols SymbolType.kind) →
    ∀ token, b.parser.look = .token token → token.kind = .kind .semicolon
  before : b.phase = .running → b.parser.stack = [] →
    ∀ token, b.parser.look = .token token → token.kind ≠ .endOfInput

theorem recover_append (input : List SymbolType) :
    (recover input).1 ++ (recover input).2 = input := by
  induction input with
  | nil => rfl
  | cons token input ih =>
      rw [recover]
      split
      · rfl
      · exact congrArg (token :: ·) ih

theorem syntaxError_tokens (b : BatchState) (c : Config SymbolType Nonterminal) :
    (b.syntaxError c).tokens = statementTokens b.statements ++ c.text := by
  have hsplit := recover_append (c.look.toList ++ c.input)
  simp only [BatchState.tokens, BatchState.syntaxError, Phase.tokens, Config.fresh_text]
  rw [List.append_assoc, hsplit, Config.text]

/-! ### The states at a boundary -/

/-- The states after a `;` that ends a statement move without another token. -/
theorem terminated_needs_no_token {symbols : List Symbol}
    (h : symbols = [tok .semicolon] ∨ symbols = [tok .semicolon, nt .command] ∨
      symbols = [tok .semicolon, nt .explainable, tok .kExplain]) :
    statementGrammar.needsToken
      (statementGrammar.closure (statementGrammar.stateOf symbols)) = false := by
  rcases h with rfl | rfl | rfl <;> decide +kernel

/-- The states after a whole command have two rules, with and without the
`;`. -/
theorem awaiting_items {symbols : List Symbol} (h : AwaitsSemicolon symbols) :
    statementGrammar.closure (statementGrammar.stateOf symbols) =
      [⟨.input, symbols, [tok .semicolon]⟩, ⟨.input, symbols, []⟩] := by
  rcases h with rfl | rfl <;> decide +kernel

theorem awaiting_shifts {symbols : List Symbol} (h : AwaitsSemicolon symbols) :
    statementGrammar.action (statementGrammar.closure (statementGrammar.stateOf symbols))
      (some (.kind .semicolon)) = .shift := by
  rcases h with rfl | rfl <;> decide +kernel

theorem awaiting_needs_token {symbols : List Symbol} (h : AwaitsSemicolon symbols) :
    statementGrammar.needsToken
      (statementGrammar.closure (statementGrammar.stateOf symbols)) = true := by
  rcases h with rfl | rfl <;> decide +kernel

/-- On any other token the command is taken as it is. -/
theorem awaiting_reduces {symbols : List Symbol} (h : AwaitsSemicolon symbols)
    {t : Terminal} (ht : t ≠ .kind .semicolon) :
    statementGrammar.action (statementGrammar.closure (statementGrammar.stateOf symbols))
      (some t) = .reduce ⟨.input, symbols, []⟩ := by
  rw [awaiting_items h]
  have hshift : LR.shiftable
      [(⟨.input, symbols, [tok .semicolon]⟩ : LR.Item Terminal Nonterminal),
        ⟨.input, symbols, []⟩] t = false := by
    simp [LR.shiftable, LR.headTerminal, tok, Ne.symm ht]
  simp [LR.Grammar.action, hshift]

/-! ### Characters taken for the end -/

theorem endOfInput_unproduced (A : Nonterminal) :
    ∀ rhs ∈ productions A, LR.Sym.t Terminal.endOfInput ∉ rhs := by
  cases A <;> decide

/-- On such a character the parser does what it does at the end of the input. -/
theorem action_endOfInput (symbols : List Symbol) :
    statementGrammar.action (statementGrammar.closure (statementGrammar.stateOf symbols))
      (some .endOfInput) =
    statementGrammar.action (statementGrammar.closure (statementGrammar.stateOf symbols)) none := by
  have hshift : LR.shiftable (statementGrammar.closure (statementGrammar.stateOf symbols))
      .endOfInput = false := by
    rw [LR.shiftable, List.any_eq_false]
    intro i hi hhead
    have hrule := (LR.fits_stateOf statementGrammar_startApart symbols i hi).rule
    refine endOfInput_unproduced i.lhs _ hrule (List.mem_append_right _ ?_)
    match hrest : i.rest with
    | [] => simp [LR.headTerminal, hrest] at hhead
    | .n A :: rest => simp [LR.headTerminal, hrest] at hhead
    | .t t :: rest =>
        have ht : t = .endOfInput := by simpa [LR.headTerminal, hrest] using hhead
        rw [ht]
        exact List.mem_cons_self
  exact LR.action_of_not_shiftable hshift

/-! ### One step -/

/-- The step invariant: the parser is sound, and so is every statement. -/
structure BatchSound (b : BatchState) : Prop where
  parser : b.parser.Sound statementGrammar SymbolType.kind
  derived : ∀ statement ∈ b.statements,
    statement.Valid SymbolType.kind statementGrammar ∧
      statement.symbol SymbolType.kind = nt .input

theorem start_sound (text : List SymbolType) : BatchSound (.start text) := by
  refine ⟨LR.fresh_sound _ _ _, ?_⟩
  intro statement hstatement
  cases hstatement

theorem syntaxError_sound {b : BatchState} (hb : BatchSound b)
    (c : Config SymbolType Nonterminal) : BatchSound (b.syntaxError c) :=
  ⟨LR.fresh_sound _ _ _, hb.derived⟩

theorem step_sound {b : BatchState} (hb : BatchSound b) : BatchSound b.step := by
  unfold BatchState.step
  split
  · split
    · rename_i parser hstep
      exact ⟨(LR.step_next statementGrammar_startApart hb.parser hstep).1, hb.derived⟩
    · rename_i tree parser hstep
      obtain ⟨hvalid, htree, -⟩ := LR.step_accept statementGrammar_startApart hb.parser hstep
      rcases accepted_cases b tree parser with ⟨-, hstatements, left, hfresh⟩ | ⟨haccepted, -⟩
      · refine ⟨?_, ?_⟩
        · rw [hfresh]
          exact LR.fresh_sound _ _ _
        · rw [hstatements]
          exact hb.derived
      · rw [haccepted]
        refine ⟨LR.fresh_sound _ _ _, ?_⟩
        intro statement hstatement
        rcases List.mem_append.mp hstatement with hstatement | hstatement
        · exact hb.derived statement hstatement
        · rw [List.mem_singleton.mp hstatement]
          refine ⟨hvalid, ?_⟩
          rw [htree]
          rfl
    · exact syntaxError_sound hb _
  · exact hb
  · exact hb

theorem parseBatch_sound (text : List SymbolType) (n : Nat) : BatchSound (parseBatch text n) := by
  induction n with
  | zero => exact start_sound text
  | succ n ih => exact step_sound ih

/-- A leaf on top of the stack under its own symbol. -/
theorem top_leaf {stack : List ParseTree} {t : Terminal} {below : List Symbol}
    (h : stack.map (Tree.symbol SymbolType.kind) = .t t :: below) :
    ∃ token rest, stack = .leaf token :: rest ∧ token.kind = t := by
  cases stack with
  | nil => cases h
  | cons tree rest =>
      obtain ⟨htop, -⟩ := List.cons.inj h
      cases tree with
      | leaf token => exact ⟨token, rest, rfl, LR.Sym.t.inj htop⟩
      | node lhs children => cases htop

/-- What a parser has on its stack when it accepts a statement. -/
theorem accept_stack {c c' : Config SymbolType Nonterminal} {tree : ParseTree}
    (hc : c.Sound statementGrammar SymbolType.kind)
    (h : statementGrammar.step SymbolType.kind c = .accept tree c') :
    c.stack = [] ∨
    (∃ token below, c.stack = .leaf token :: below ∧ token.kind = .kind .semicolon ∧
      c.look = .unread) ∨
    (AwaitsSemicolon (c.symbols SymbolType.kind) ∧ c.look ≠ .unread) := by
  obtain ⟨hvalid, htree, -, hunread, -⟩ := LR.step_accept statementGrammar_startApart hc h
  rw [htree] at hvalid
  have hrule : (c.symbols SymbolType.kind).reverse ∈ productions .input := by
    rw [Config.symbols, ← List.map_reverse]
    cases hvalid with
    | node rule valid => exact rule
  -- over a `;` the next token has not been read: no state there needs one
  have hterminated : ∀ below, c.symbols SymbolType.kind = tok .semicolon :: below →
      (tok .semicolon :: below = [tok .semicolon] ∨
        tok .semicolon :: below = [tok .semicolon, nt .command] ∨
        tok .semicolon :: below = [tok .semicolon, nt .explainable, tok .kExplain]) →
      ∃ token rest, c.stack = .leaf token :: rest ∧ token.kind = .kind .semicolon ∧
        c.look = .unread := by
    intro below hsymbols hshape
    obtain ⟨token, rest, hstack, hkind⟩ := top_leaf hsymbols
    refine ⟨token, rest, hstack, hkind, ?_⟩
    by_contra hread
    have hneeds := hc.needed token rest hstack hread
    rw [LR.Grammar.items, hsymbols, terminated_needs_no_token hshape] at hneeds
    cases hneeds
  have hawaits : AwaitsSemicolon (c.symbols SymbolType.kind) → c.look ≠ .unread := by
    intro hshape hlook
    have hneeds := hunread hlook
    rw [LR.Grammar.items, awaiting_needs_token hshape] at hneeds
    cases hneeds
  simp only [productions, List.mem_cons, List.not_mem_nil, or_false, List.reverse_eq_iff,
    List.reverse_nil, List.reverse_cons, List.nil_append, List.cons_append] at hrule
  rcases hrule with hrule | hrule | hrule | hrule | hrule | hrule
  · exact .inl (List.map_eq_nil_iff.mp hrule)
  · exact .inr (.inl (hterminated _ hrule (.inl rfl)))
  · exact .inr (.inl (hterminated _ hrule (.inr (.inl rfl))))
  · exact .inr (.inr ⟨.inl hrule, hawaits (.inl hrule)⟩)
  · exact .inr (.inl (hterminated _ hrule (.inr (.inr rfl))))
  · exact .inr (.inr ⟨.inr hrule, hawaits (.inr hrule)⟩)

/-- At a boundary nothing read ahead is lost: the accepted statement and what
the scanner has left are the parser's text. -/
theorem accept_text {b : BatchState} (hb : BatchSound b) (hphase : b.phase = .running)
    (hboundary : AtBoundary b) {tree : ParseTree} {c : Config SymbolType Nonterminal}
    (h : statementGrammar.step SymbolType.kind b.parser = .accept tree c)
    (hstack : b.parser.stack ≠ []) :
    tree.yield ++ c.input = b.parser.text ∧ (EndsInSemicolon tree ∨ c.input = []) := by
  obtain ⟨-, htree, hconfig, -, rule, haction⟩ :=
    LR.step_accept statementGrammar_startApart hb.parser h
  have hyield : tree.yield = Tree.yieldAll b.parser.stack.reverse := by
    rw [htree]
    rfl
  have hinput : c.input = b.parser.input := by rw [hconfig]
  rcases accept_stack hb.parser h with
    hempty | ⟨token, below, htop, hkind, hlook⟩ | ⟨hawaits, hread⟩
  · exact absurd hempty hstack
  · refine ⟨?_, .inl ⟨Tree.yieldAll below.reverse, token, ?_, hkind⟩⟩
    · rw [Config.text, hyield, hinput, hlook]
      rfl
    · rw [hyield, htop, List.reverse_cons, Tree.yieldAll_append]
      rfl
  · cases hlook : b.parser.look with
    | unread => exact absurd hlook hread
    | token token =>
        have hkind := hboundary.behind hphase hawaits token hlook
        rw [hlook, LR.Look.terminal, hkind, LR.Grammar.items, awaiting_shifts hawaits] at haction
        cases haction
    | atEnd =>
        refine ⟨?_, .inr ?_⟩
        · rw [Config.text, hyield, hinput, hlook]
          rfl
        · rw [hinput]
          exact hb.parser.atEnd hlook

/-- What a step at a boundary does with the parser's text: at most one new
statement takes a first part of it, ended as it should be. -/
def SplitsText (b b' : BatchState) : Prop :=
  ∃ new, b'.statements = b.statements ++ new ∧
    statementTokens new ++ (b'.phase.tokens ++ b'.parser.text) = b.parser.text ∧
    (new = [] ∨ ∃ tree, new = [tree] ∧ (∀ lhs, tree ≠ .node lhs []) ∧
      (EndsInSemicolon tree ∨ b'.phase.tokens ++ b'.parser.text = [])) ∧
    (b'.phase = .finished → b'.parser.text = [])

theorem syntaxError_splits {b : BatchState} {c : Config SymbolType Nonterminal}
    (htext : c.text = b.parser.text) : SplitsText b (b.syntaxError c) := by
  refine ⟨[], (List.append_nil _).symm, ?_, .inl rfl, ?_⟩
  · rw [← htext]
    exact List.append_cancel_left (syntaxError_tokens b c)
  · intro hfinished
    cases hfinished

/-- The empty alternative ends the batch at the end of the text and is an
error anywhere else. -/
theorem accepted_empty_splits {b : BatchState} {c : Config SymbolType Nonterminal}
    (htext : c.text = b.parser.text) (hstack : c.stack = [])
    (hatEnd : c.look = .atEnd → c.input = [])
    (hboundary : ∀ token, c.look = .token token → token.kind ≠ .endOfInput) (lhs : Nonterminal) :
    SplitsText b (b.accepted (.node lhs []) c) := by
  cases hlook : c.look with
  | atEnd =>
      have haccepted : b.accepted (.node lhs []) c =
          { b with phase := .finished, parser := Config.fresh c.input } := by
        simp only [BatchState.accepted, hlook]
      rw [haccepted, hatEnd hlook]
      have hnil : c.text = [] := by
        rw [Config.text, hstack, hlook, hatEnd hlook]
        rfl
      refine ⟨[], (List.append_nil _).symm, ?_, .inl rfl, fun _ => rfl⟩
      rw [← htext, hnil]
      rfl
  | unread =>
      have haccepted : b.accepted (.node lhs []) c = b.syntaxError c := by
        simp only [BatchState.accepted, hlook]
      rw [haccepted]
      exact syntaxError_splits htext
  | token token =>
      have haccepted : b.accepted (.node lhs []) c = b.syntaxError c := by
        simp only [BatchState.accepted, hlook, if_neg (hboundary token hlook)]
      rw [haccepted]
      exact syntaxError_splits htext

theorem accepted_statement_splits {b : BatchState} {c : Config SymbolType Nonterminal}
    (hphase : b.phase = .running) {lhs : Nonterminal} {children : List ParseTree}
    (hchildren : children ≠ [])
    (htext : (LR.Tree.node lhs children).yield ++ c.input = b.parser.text)
    (hended : EndsInSemicolon (.node lhs children) ∨ c.input = []) :
    SplitsText b (b.accepted (.node lhs children) c) := by
  obtain ⟨child, rest, rfl⟩ := List.exists_cons_of_ne_nil hchildren
  have hnonempty : ∀ lhs', LR.Tree.node lhs (child :: rest) ≠ .node lhs' [] := by
    intro lhs' heq
    cases heq
  rw [accepted_nonempty b hnonempty c]
  split
  · refine ⟨[], (List.append_nil _).symm, htext, .inl rfl, ?_⟩
    intro hfinished
    cases hfinished
  · refine ⟨[.node lhs (child :: rest)], rfl, ?_, .inr ⟨_, rfl, hnonempty, ?_⟩, ?_⟩
    · simpa [statementTokens, hphase, Phase.tokens] using htext
    · simpa [hphase, Phase.tokens] using hended
    · intro hfinished
      rw [BatchState.returned_phase, hphase] at hfinished
      cases hfinished

theorem step_splits {b : BatchState} (hb : BatchSound b) (hphase : b.phase = .running)
    (hboundary : AtBoundary b) : SplitsText b b.step := by
  cases hmove : statementGrammar.step SymbolType.kind b.parser with
  | next parser =>
      have hstep : b.step = { b with parser := parser } := by
        simp only [BatchState.step, hphase, hmove]
      rw [hstep]
      refine ⟨[], (List.append_nil _).symm, ?_, .inl rfl, ?_⟩
      · have htext := (LR.step_next statementGrammar_startApart hb.parser hmove).2
        simpa [statementTokens, hphase, Phase.tokens] using htext
      · intro hfinished
        rw [hphase] at hfinished
        cases hfinished
  | error =>
      have hstep : b.step = b.syntaxError b.parser := by
        simp only [BatchState.step, hphase, hmove]
      rw [hstep]
      exact syntaxError_splits rfl
  | accept tree c =>
      have hstep : b.step = b.accepted tree c := by
        simp only [BatchState.step, hphase, hmove]
      obtain ⟨-, htree, hconfig, -⟩ := LR.step_accept statementGrammar_startApart hb.parser hmove
      rw [hstep, htree]
      by_cases hstack : b.parser.stack = []
      · rw [hstack, List.reverse_nil]
        rw [hconfig]
        refine accepted_empty_splits ?_ ?_ ?_ ?_ _
        · rw [Config.text, Config.text, hstack]
        · rfl
        · exact hb.parser.atEnd
        · exact hboundary.before hphase hstack
      · obtain ⟨htext, hended⟩ := accept_text hb hphase hboundary hmove hstack
        rw [htree] at htext hended
        exact accepted_statement_splits hphase (List.reverse_ne_nil_iff.mpr hstack) htext hended

theorem step_stopped {b : BatchState} (hphase : b.phase ≠ .running) : b.step = b := by
  unfold BatchState.step
  split
  · exact absurd ‹b.phase = .running› hphase
  · rfl
  · rfl

theorem step_tokens {b : BatchState} (hb : BatchSound b) (hboundary : AtBoundary b) :
    b.step.tokens = b.tokens := by
  by_cases hphase : b.phase = .running
  · obtain ⟨new, hstatements, htext, -⟩ := step_splits hb hphase hboundary
    rw [BatchState.tokens, BatchState.tokens, hstatements, hphase, Phase.tokens, List.nil_append,
      ← htext, statementTokens, List.flatMap_append, List.append_assoc]
    rfl
  · rw [step_stopped hphase]

/-- A whole command before any other token is accepted as a statement. -/
theorem awaiting_accepts {c : Config SymbolType Nonterminal}
    (hawaits : AwaitsSemicolon (c.symbols SymbolType.kind)) {token : SymbolType}
    (hlook : c.look = .token token) (hkind : token.kind ≠ .kind .semicolon) :
    statementGrammar.step SymbolType.kind c =
      .accept (.node .input c.stack.reverse) { c with stack := [] } := by
  have haction := awaiting_reduces hawaits hkind
  have hlength : (c.symbols SymbolType.kind).length = c.stack.length := List.length_map _
  simp only [LR.Grammar.step, LR.Grammar.items, hlook, LR.Look.isUnread, LR.Look.terminal,
    haction, Bool.false_and, Bool.false_eq_true, if_false, LR.Grammar.reduce, hlength,
    List.take_length, List.drop_length]
  rfl

/-- A character that is taken for the end of the input is shifted nowhere. -/
theorem starting_accepts {c : Config SymbolType Nonterminal} (hstack : c.stack = [])
    {token : SymbolType} (hlook : c.look = .token token) (hkind : token.kind = .endOfInput) :
    statementGrammar.step SymbolType.kind c = .accept (.node .input []) c := by
  have haction : statementGrammar.action (statementGrammar.closure (statementGrammar.stateOf []))
      (some .endOfInput) = .reduce ⟨.input, [], []⟩ := by
    rw [action_endOfInput]
    decide +kernel
  have hitems : statementGrammar.items SymbolType.kind c =
      statementGrammar.closure (statementGrammar.stateOf []) := by
    rw [LR.Grammar.items, Config.symbols, hstack]
    rfl
  obtain ⟨stack, look, input⟩ := c
  obtain rfl : stack = [] := hstack
  obtain rfl : look = .token token := hlook
  rw [LR.Grammar.step, hitems, LR.Look.terminal, hkind, haction]
  rfl

/-- Anywhere but at a boundary, the token read ahead is dropped. -/
theorem step_drops {b : BatchState} (hboundary : ¬AtBoundary b) :
    b.step.tokens.length < b.tokens.length := by
  have hdrops : ∀ tree token, b.phase = .running → b.parser.look = .token token →
      b.step = b.accepted tree { b.parser with stack := [] } →
      tree.yield = Tree.yieldAll b.parser.stack.reverse →
      ((∀ lhs, tree ≠ .node lhs []) ∨
        b.accepted tree { b.parser with stack := [] } =
          b.returned tree { b.parser with stack := [] }) →
      b.step.tokens.length < b.tokens.length := by
    intro tree token hphase hlook hstep hyield hkept
    have htokens : b.step.tokens = statementTokens b.statements ++
        (Tree.yieldAll b.parser.stack.reverse ++ b.parser.input) := by
      have hreturned : (b.returned tree { b.parser with stack := [] }).tokens =
          statementTokens b.statements ++
            (Tree.yieldAll b.parser.stack.reverse ++ b.parser.input) := by
        simp [BatchState.returned, BatchState.tokens, statementTokens, hphase, Phase.tokens, hyield]
      rw [hstep]
      rcases hkept with hnonempty | hkept
      · rw [accepted_nonempty b hnonempty]
        split
        · simp [BatchState.tokens, Phase.tokens, hyield]
        · exact hreturned
      · rw [hkept]
        exact hreturned
    rw [htokens, BatchState.tokens, hphase, Config.text, hlook]
    simp [Phase.tokens, LR.Look.toList]
  by_cases hbehind : b.phase = .running → AwaitsSemicolon (b.parser.symbols SymbolType.kind) →
      ∀ token, b.parser.look = .token token → token.kind = .kind .semicolon
  · have hbefore : ¬(b.phase = .running → b.parser.stack = [] →
        ∀ token, b.parser.look = .token token → token.kind ≠ .endOfInput) :=
      fun h => hboundary ⟨hbehind, h⟩
    simp only [not_forall, not_not] at hbefore
    obtain ⟨hphase, hstack, token, hlook, hkind⟩ := hbefore
    have hparser : ({ b.parser with stack := [] } : Config SymbolType Nonterminal) = b.parser := by
      rw [← hstack]
    have hstep : b.step = b.accepted (.node .input []) b.parser := by
      simp only [BatchState.step, hphase, starting_accepts hstack hlook hkind]
    refine hdrops (.node .input []) token hphase hlook (hstep.trans (by rw [hparser])) ?_ (.inr ?_)
    · rw [hstack]
      rfl
    · simp only [BatchState.accepted, hlook, if_pos hkind]
  · simp only [not_forall] at hbehind
    obtain ⟨hphase, hawaits, token, hlook, hkind⟩ := hbehind
    have hstep : b.step =
        b.accepted (.node .input b.parser.stack.reverse) { b.parser with stack := [] } := by
      simp only [BatchState.step, hphase, awaiting_accepts hawaits hlook hkind]
    refine hdrops _ token hphase hlook hstep rfl (.inl fun lhs heq => ?_)
    -- there is a command on the stack
    have hempty := (LR.Tree.node.inj heq).2
    rw [Config.symbols, List.reverse_eq_nil_iff.mp hempty] at hawaits
    rcases hawaits with h | h <;> cases h

theorem step_tokens_le {b : BatchState} (hb : BatchSound b) :
    b.step.tokens.length ≤ b.tokens.length := by
  by_cases hboundary : AtBoundary b
  · exact Nat.le_of_eq (congrArg List.length (step_tokens hb hboundary))
  · exact Nat.le_of_lt (step_drops hboundary)

theorem parseBatch_tokens_le (text : List SymbolType) {m n : Nat} (hmn : m ≤ n) :
    (parseBatch text n).tokens.length ≤ (parseBatch text m).tokens.length := by
  induction hmn with
  | refl => exact Nat.le_refl _
  | step _ ih => exact Nat.le_trans (step_tokens_le (parseBatch_sound text _)) ih

/-! ### Whole runs -/

theorem start_faithful (text : List SymbolType) : BatchFaithful text (.start text) := by
  refine ⟨(start_sound text).derived, ?_, rfl, ?_, ?_⟩
  · intro statement hstatement
    cases hstatement
  · intro before statement after h
    have hlength := congrArg List.length h
    simp [BatchState.start] at hlength
  · intro hfinished
    cases hfinished

theorem step_faithful {text : List SymbolType} {b : BatchState} (hb : BatchSound b)
    (hboundary : AtBoundary b) (h : BatchFaithful text b) : BatchFaithful text b.step := by
  by_cases hphase : b.phase = .running
  · obtain ⟨new, hstatements, htext, hnew, hfinished⟩ := step_splits hb hphase hboundary
    refine ⟨(step_sound hb).derived, ?_, (step_tokens hb hboundary).trans h.complete, ?_,
      hfinished⟩
    · rw [hstatements]
      intro statement hstatement
      rcases List.mem_append.mp hstatement with hold | hnext
      · exact h.written statement hold
      · rcases hnew with rfl | ⟨tree, rfl, hnonempty, -⟩
        · cases hnext
        · rw [List.mem_singleton.mp hnext]
          exact hnonempty
    intro before statement after hsplit
    rw [hstatements] at hsplit
    have hremaining : ∀ rest, b.statements = before ++ statement :: rest →
        EndsInSemicolon statement ∨ statementTokens rest ++ b.parser.text = [] := by
      intro rest hrest
      simpa only [hphase, Phase.tokens, List.nil_append] using h.ended before statement rest hrest
    rcases hnew with rfl | ⟨tree, rfl, -, htree⟩
    · rw [List.append_nil] at hsplit
      rw [statementTokens, List.flatMap_nil, List.nil_append] at htext
      rw [htext]
      exact hremaining after hsplit
    · rcases List.eq_nil_or_concat after with rfl | ⟨rest, last, rfl⟩
      · -- the new statement itself
        obtain ⟨-, hlast⟩ := List.append_inj' hsplit rfl
        rw [← (List.cons.inj hlast).1]
        exact htree
      · -- an earlier one: what came after it is what comes after it now
        rw [List.concat_eq_append, ← List.cons_append, ← List.append_assoc] at hsplit
        obtain ⟨hrest, hlast⟩ := List.append_inj' hsplit rfl
        rw [List.concat_eq_append, statementTokens, List.flatMap_append, List.append_assoc, ← hlast]
        rw [← htext] at hremaining
        exact hremaining rest hrest
  · rw [step_stopped hphase]
    exact h

/-- A run returns the text as it was written exactly as long as every whole
command is followed by a `;` or by the end of the text. -/
theorem batch_faithful_iff (text : List SymbolType) (n : Nat) :
    BatchFaithful text (parseBatch text n) ↔ ∀ m < n, AtBoundary (parseBatch text m) := by
  constructor
  · intro h m hm
    by_contra hboundary
    have hdrop := step_drops hboundary
    have hbefore := parseBatch_tokens_le text (Nat.zero_le m)
    have hafter := parseBatch_tokens_le text (Nat.succ_le_of_lt hm)
    have hall : (parseBatch text n).tokens.length = text.length := by rw [h.complete]
    have hstart : (parseBatch text 0).tokens.length = text.length := rfl
    rw [parseBatch] at hafter
    omega
  · intro h
    induction n with
    | zero => exact start_faithful text
    | succ n ih =>
        have hprior : BatchFaithful text (parseBatch text n) :=
          ih fun m hm => h m (Nat.lt_succ_of_lt hm)
        exact step_faithful (parseBatch_sound text n) (h n (Nat.lt_succ_self n)) hprior

def wordToken (lexeme : String) : SymbolType := ⟨.kind .tUnquotedString, lexeme⟩

def keywordToken (kind : TokenKind) (lexeme : String) : SymbolType := ⟨.kind kind, lexeme⟩

-- `DELETE FROM t; QUIT` comes back as its two statements
example :
    let text := [keywordToken .kDelete "DELETE", keywordToken .kFrom "FROM", wordToken "t",
      keywordToken .semicolon ";", keywordToken .kQuit "QUIT"]
    (parseBatch text 30).statements.map Tree.yield = [text.take 4, text.drop 4] ∧
      (parseBatch text 30).phase = .finished := by
  decide +kernel

-- a byte from 0x80 on its own is an empty statement, and gone
example :
    let text := [⟨.endOfInput, "\xa0"⟩, keywordToken .kQuit "QUIT", keywordToken .semicolon ";"]
    (parseBatch text 30).statements.map Tree.yield = [[], text.drop 1] ∧
      (parseBatch text 30).phase = .finished := by
  decide +kernel

/-- `DELETE FROM t WERE pk = 1;` comes back as `DELETE FROM t`. -/
theorem misspelledWhere_unfaithful :
    let text := [keywordToken .kDelete "DELETE", keywordToken .kFrom "FROM", wordToken "t",
      wordToken "WERE", wordToken "pk", keywordToken .tEqual "=",
      keywordToken .tWholeNumber "1", keywordToken .semicolon ";"]
    (parseBatch text 30).statements.map Tree.yield = [text.take 3] ∧
      (parseBatch text 30).phase = .failed (text.drop 4) ∧
      ¬BatchFaithful text (parseBatch text 30) := by
  intro text
  refine ⟨by decide +kernel, by decide +kernel, ?_⟩
  intro h
  have htokens : (parseBatch text 30).tokens = text.take 3 ++ text.drop 4 := by decide +kernel
  have hdropped : text.take 3 ++ text.drop 4 ≠ text := by decide +kernel
  exact hdropped (htokens.symm.trans h.complete)

end DdbShell
