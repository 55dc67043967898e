import DdbShell.Parser.Complete
import Mathlib.Data.List.Induction

/-!
Batches one after the other. Where a text that ends in `;` is a whole batch,
the parser has not looked behind it, and what follows is a batch of its own. So
a script may be cut behind any `;` but those inside a transaction. The reason
is that no command ends in `;`: a parser that sees the end of such a text has
statements left open, and never accepts.
-/

namespace DdbShell

open LR (Config Tree)

/-! ### No command ends in `;` -/

/-- The statements of an open transaction end in `;`, and so do the batches. -/
def endsOpen : Symbol → Bool
  | .t t => t = .kind .semicolon
  | .n A => A = .input || A = .transactGetCommand || A = .transactWriteCommand

/-- Nothing that can be the last part of a right-hand side ends in `;`. The
right-hand side is given last symbol first. -/
def lastChecked : List Symbol → Bool
  | [] => true
  | X :: others => !endsOpen X && (!statementGrammar.nullableSym X || lastChecked others)

theorem lastChecked_all :
    (nonterminals.all fun A => endsOpen (.n A) ||
      (productions A).all fun rhs => lastChecked rhs.reverse) = true := by
  decide +kernel

theorem lastChecked_rule {A : Nonterminal} {rhs : List Symbol} (hrhs : rhs ∈ productions A)
    (hA : endsOpen (.n A) = false) : lastChecked rhs.reverse = true := by
  have hall := List.all_eq_true.mp lastChecked_all A (mem_nonterminals A)
  rw [hA, Bool.false_or] at hall
  exact List.all_eq_true.mp hall rhs hrhs

theorem yieldAll_last {trees : List ParseTree}
    (hvalid : ∀ tree ∈ trees, tree.Valid SymbolType.kind statementGrammar)
    (hchecked : lastChecked (trees.map (Tree.symbol SymbolType.kind)).reverse = true)
    (hlast : ∀ tree ∈ trees, endsOpen (tree.symbol SymbolType.kind) = false →
      ∀ token ∈ tree.yield.getLast?, token.kind ≠ .kind .semicolon) :
    ∀ token ∈ (Tree.yieldAll trees).getLast?, token.kind ≠ .kind .semicolon := by
  induction trees using List.reverseRecOn with
  | nil =>
      intro token htoken
      cases htoken
  | append_singleton front tree ih =>
      rw [List.map_append, List.reverse_append] at hchecked
      obtain ⟨hopen, hfront⟩ := Bool.and_eq_true_iff.mp hchecked
      have hmem : tree ∈ front ++ [tree] := List.mem_append_right front List.mem_cons_self
      intro token htoken
      rw [Tree.yieldAll_append, Tree.yieldAll, Tree.yieldAll, List.append_nil,
        List.getLast?_append] at htoken
      cases hyield : tree.yield.getLast? with
      | some last =>
          rw [hyield] at htoken
          obtain rfl := Option.some.inj htoken
          exact hlast tree hmem ((Bool.not_eq_true' _).mp hopen) last hyield
      | none =>
          rw [hyield] at htoken
          have hnull := LR.nullable_of_yield
            (fun A rhs hrhs => statementRanking.nullable_of_all hrhs) (hvalid tree hmem)
            (List.getLast?_eq_none_iff.mp hyield)
          rw [hnull, Bool.not_true, Bool.false_or] at hfront
          exact ih (fun t ht => hvalid t (List.mem_append_left _ ht)) hfront
            (fun t ht => hlast t (List.mem_append_left _ ht)) token htoken

/-- What is no part of a transaction does not end in `;`. -/
theorem yield_last {tree : ParseTree} (hvalid : tree.Valid SymbolType.kind statementGrammar)
    (hopen : endsOpen (tree.symbol SymbolType.kind) = false) :
    ∀ token ∈ tree.yield.getLast?, token.kind ≠ .kind .semicolon := by
  induction hvalid with
  | leaf token =>
      intro last hlast hkind
      have hsame : token = last := Option.some.inj hlast
      rw [Tree.symbol, endsOpen, hsame, hkind] at hopen
      cases hopen
  | node hrule hchildren ih =>
      rw [Tree.yield]
      exact yieldAll_last hchildren (lastChecked_rule hrule hopen) ih

/-! ### Over the end of a text -/

/-- A text that ends in `;`, if it is not empty. -/
def EndsWhole (text : List SymbolType) : Prop :=
  ∀ token ∈ text.getLast?, token.kind = .kind .semicolon

/-- A batch that will not finish: it has failed, or its parser has seen the end
of a text that ends in `;`, with something on its stack. -/
def Doomed (b : BatchState) : Prop :=
  (∃ statement, b.phase = .failed statement) ∨
    (b.phase = .running ∧ b.parser.look = .atEnd ∧ b.parser.stack ≠ [] ∧
      EndsWhole b.parser.text)

/-- At the end of a text that ends in `;` nothing is accepted. -/
theorem open_not_accepted {c c' : Config SymbolType Nonterminal} {tree : ParseTree}
    (hc : c.Sound statementGrammar SymbolType.kind) (hlook : c.look = .atEnd)
    (hstack : c.stack ≠ []) (hends : EndsWhole c.text) :
    statementGrammar.step SymbolType.kind c ≠ .accept tree c' := by
  intro haccept
  have htext : c.text = Tree.yieldAll c.stack.reverse := by
    rw [Config.text, hlook, hc.atEnd hlook]
    exact List.append_nil _
  -- what would be accepted is one command
  rcases accept_stack hc haccept with hnil | ⟨_, _, _, _, hunread⟩ | ⟨hawaits, -⟩
  · exact hstack hnil
  · rw [hlook] at hunread
    cases hunread
  · have hchecked : lastChecked (c.stack.reverse.map (Tree.symbol SymbolType.kind)).reverse =
        true := by
      rw [List.map_reverse, List.reverse_reverse]
      rcases hawaits with h | h <;> (rw [Config.symbols] at h; rw [h]; rfl)
    have hvalid : ∀ tree ∈ c.stack.reverse, tree.Valid SymbolType.kind statementGrammar :=
      fun tree htree => hc.valid tree (List.mem_reverse.mp htree)
    have hlast := yieldAll_last hvalid hchecked fun tree htree => yield_last (hvalid tree htree)
    have hnot : Tree.yieldAll c.stack.reverse ≠ [] := by
      intro hempty
      have hnull := LR.nullable_of_yieldAll
        (fun A rhs hrhs => statementRanking.nullable_of_all hrhs) hvalid hempty
      rw [List.map_reverse, List.all_reverse] at hnull
      rcases hawaits with h | h <;> (rw [Config.symbols] at h; rw [h] at hnull; cases hnull)
    have hsome := List.getLast?_eq_some_getLast hnot
    rw [htext] at hends
    exact hlast _ hsome (hends _ hsome)

/-- A doomed batch stays doomed. -/
theorem step_doomed {b : BatchState} (hb : BatchSound b) (h : Doomed b) : Doomed b.step := by
  rcases h with ⟨statement, hfailed⟩ | ⟨hphase, hlook, hstack, hends⟩
  · rw [step_stopped (by rw [hfailed]; simp)]
    exact .inl ⟨statement, hfailed⟩
  · cases hmove : statementGrammar.step SymbolType.kind b.parser with
    | accept tree c => exact absurd hmove (open_not_accepted hb.parser hlook hstack hends)
    | error =>
        have hstep : b.step = b.syntaxError b.parser := by
          simp only [BatchState.step, hphase, hmove]
        rw [hstep]
        exact .inl ⟨_, rfl⟩
    | next c =>
        have hstep : b.step = { b with parser := c } := by
          simp only [BatchState.step, hphase, hmove]
        have htext := (LR.step_next statementGrammar_startApart hb.parser hmove).2
        rw [hstep]
        -- with the end in sight only reductions are left
        rcases LR.step_cases statementGrammar SymbolType.kind b.parser with
          ⟨_, hunread, _⟩ | ⟨token, htoken, _⟩ | ⟨rule, _, _, hreduce⟩ | herror
        · rw [hlook] at hunread
          cases hunread
        · rw [hlook] at htoken
          cases htoken
        · rw [hmove] at hreduce
          unfold LR.Grammar.reduce at hreduce
          split at hreduce
          · cases hreduce
          · cases hreduce
            exact .inr ⟨hphase, hlook, List.cons_ne_nil _ _, by rwa [← htext] at hends⟩
        · rw [hmove] at herror
          cases herror

/-! ### One batch after the other -/

/-- The state of a batch with more text behind it. -/
def BatchState.over (b : BatchState) (more : List SymbolType) : BatchState :=
  { b with parser := b.parser.over more }

/-- A batch that goes on behind a derivation does so with more text behind it. -/
theorem accepted_over {b : BatchState} {tree : ParseTree} {c : Config SymbolType Nonterminal}
    (h : (b.accepted tree c).phase = .running) (more : List SymbolType) :
    (b.over more).accepted tree (c.over more) = (b.accepted tree c).over more := by
  obtain ⟨haccepted, hsemantic, hempty⟩ := accepted_of_running h
  have hover : (b.over more).accepted tree (c.over more) =
      (b.over more).returned tree (c.over more) := by
    by_cases htree : ∃ lhs, tree = .node lhs []
    · obtain ⟨lhs, rfl⟩ := htree
      obtain ⟨token, hlook, hkind⟩ := hempty lhs rfl
      have hlook' : (c.over more).look = .token token := hlook
      simp only [BatchState.accepted, hlook', if_pos hkind]
    · rw [accepted_nonempty _ (fun lhs heq => htree ⟨lhs, heq⟩), hsemantic]
      rfl
  rw [hover, haccepted]
  rfl

/-- The state of a batch behind statements that came before it. -/
def BatchState.behind (b : BatchState) (statements : List ParseTree) : BatchState :=
  { b with statements := statements ++ b.statements }

theorem step_behind (b : BatchState) (statements : List ParseTree) :
    (b.behind statements).step = b.step.behind statements := by
  unfold BatchState.step
  have hphase : (b.behind statements).phase = b.phase := rfl
  have hparser : (b.behind statements).parser = b.parser := rfl
  rw [hphase, hparser]
  cases b.phase with
  | finished => rfl
  | failed statement => rfl
  | running =>
      dsimp only
      cases statementGrammar.step SymbolType.kind b.parser with
      | next c => rfl
      | error => rfl
      | accept tree c =>
          dsimp only
          have hreturned : (b.behind statements).returned tree c =
              (b.returned tree c).behind statements := by
            simp only [BatchState.returned, BatchState.behind, List.append_assoc]
          unfold BatchState.accepted
          split
          · rfl
          · rfl
          · split
            · exact hreturned
            · rfl
          · split
            · rfl
            · exact hreturned

theorem steps_behind {b b' : BatchState} (h : b.Steps b') (statements : List ParseTree) :
    (b.behind statements).Steps (b'.behind statements) := by
  induction h with
  | refl => exact .refl
  | tail _ hstep ih =>
      refine ih.tail ?_
      rw [step_behind, hstep]

/-- A batch whose parser has not seen the end of a text that ends in `;`. -/
structure Within (b : BatchState) : Prop where
  phase : b.phase = .running
  look : b.parser.look ≠ .atEnd
  ends : EndsWhole b.parser.text
  empty : b.parser.text = [] → b.parser.stack = []

theorem endsWhole_suffix {front text : List SymbolType} (h : EndsWhole (front ++ text)) :
    EndsWhole text := by
  intro token htoken
  refine h token ?_
  rw [List.getLast?_append, Option.mem_def.mp htoken]
  rfl

theorem next_look {c c' : Config SymbolType Nonterminal}
    (h : statementGrammar.step SymbolType.kind c = .next c') (hlook : c.look ≠ .atEnd)
    (hread : c.look = .unread →
      statementGrammar.needsToken (statementGrammar.items SymbolType.kind c) = true →
        c.input ≠ []) : c'.look ≠ .atEnd := by
  rcases LR.step_cases statementGrammar SymbolType.kind c with
    ⟨hneeds, hunread, hstep⟩ | ⟨token, _, hstep⟩ | ⟨rule, _, _, hstep⟩ | hstep
  · rw [h] at hstep
    cases hstep
    obtain ⟨token, input, hinput⟩ := List.exists_cons_of_ne_nil (hread hunread hneeds)
    simp only [Config.read, hinput]
    exact fun hend => by cases hend
  · rw [h] at hstep
    cases hstep
    exact fun hend => by cases hend
  · rw [h] at hstep
    unfold LR.Grammar.reduce at hstep
    split at hstep
    · cases hstep
    · cases hstep
      exact hlook
  · rw [h] at hstep
    cases hstep

/-- A move within the text is the same with more text behind it, or dooms the
batch. -/
theorem step_within {b : BatchState} (hb : BatchSound b) (h : Within b)
    (htext : b.parser.text ≠ []) (more : List SymbolType) :
    (Within b.step ∧ (b.over more).step = b.step.over more) ∨ Doomed b.step := by
  by_cases hread : b.parser.look = .unread →
      statementGrammar.needsToken (statementGrammar.items SymbolType.kind b.parser) = true →
        b.parser.input ≠ []
  · have hover := LR.step_over statementGrammar SymbolType.kind b.parser more hread
    have hphase : (b.over more).phase = .running := h.phase
    have hparser : (b.over more).parser = b.parser.over more := rfl
    cases hmove : statementGrammar.step SymbolType.kind b.parser with
    | error =>
        have hstep : b.step = b.syntaxError b.parser := by
          simp only [BatchState.step, h.phase, hmove]
        rw [hstep]
        exact .inr (.inl ⟨_, rfl⟩)
    | next c =>
        have hstep : b.step = { b with parser := c } := by
          simp only [BatchState.step, h.phase, hmove]
        have hsame := (LR.step_next statementGrammar_startApart hb.parser hmove).2
        rw [hmove] at hover
        refine .inl ⟨?_, ?_⟩
        · rw [hstep]
          refine ⟨h.phase, next_look hmove h.look hread, ?_, ?_⟩
          · rw [hsame]
            exact h.ends
          · rw [hsame]
            exact fun hnil => absurd hnil htext
        · rw [hstep]
          simp only [BatchState.step, hphase, hparser, hover, LR.Move.over]
          rw [← hphase]
          rfl
    | accept tree c =>
        have hstep : b.step = b.accepted tree c := by
          simp only [BatchState.step, h.phase, hmove]
        obtain ⟨-, htree, hconfig, -⟩ :=
          LR.step_accept statementGrammar_startApart hb.parser hmove
        have hlook : c.look ≠ .atEnd := by
          rw [hconfig]
          exact h.look
        rw [hmove] at hover
        have hstep' : (b.over more).step = (b.over more).accepted tree (c.over more) := by
          simp only [BatchState.step, hphase, hparser, hover, LR.Move.over]
        rw [hstep, hstep']
        rcases accepted_cases b tree c with
          ⟨⟨-, hend⟩ | ⟨statement, hfailed⟩, -⟩ | ⟨haccepted, -⟩
        · exact absurd hend hlook
        · exact .inr (.inl ⟨statement, hfailed⟩)
        · have hrunning : (b.accepted tree c).phase = .running := by
            rw [haccepted]
            exact h.phase
          refine .inl ⟨?_, accepted_over hrunning more⟩
          rw [haccepted]
          refine ⟨h.phase, (fun hend => by cases hend), ?_, fun _ => rfl⟩
          have hends := h.ends
          rw [Config.text, ← List.append_assoc] at hends
          rw [hconfig]
          exact endsWhole_suffix hends
  · -- the end of the text comes into sight
    push Not at hread
    obtain ⟨hlook, hneeds, hinput⟩ := hread
    have hmove : statementGrammar.step SymbolType.kind b.parser = .next b.parser.read := by
      rw [LR.Grammar.step, hneeds, hlook]
      rfl
    have hstep : b.step = { b with parser := b.parser.read } := by
      simp only [BatchState.step, h.phase, hmove]
    have hsame := (LR.step_next statementGrammar_startApart hb.parser hmove).2
    refine .inr (.inr ?_)
    rw [hstep]
    refine ⟨h.phase, ?_, ?_, ?_⟩
    · simp only [Config.read, hinput]
    · intro hstack
      refine htext ?_
      have hstack' : b.parser.stack = [] := by
        simpa only [Config.read, hinput] using hstack
      rw [Config.text, hstack', hlook, hinput]
      rfl
    · rw [hsame]
      exact h.ends

/-- With no text left the next parser has not started. -/
theorem within_done {b : BatchState} (h : Within b) (htext : b.parser.text = []) :
    b = ⟨b.statements, .running, Config.fresh []⟩ := by
  obtain ⟨statements, phase, stack, look, input⟩ := b
  obtain rfl : phase = .running := h.phase
  obtain rfl : stack = [] := h.empty htext
  have hleft : look.toList ++ input = [] := htext
  obtain ⟨hlook, rfl⟩ := List.append_eq_nil_iff.mp hleft
  cases look with
  | unread => rfl
  | token token => cases hlook
  | atEnd => exact absurd rfl h.look

/-- The whole batch has been read, and the next parser has nothing before it;
with more text behind, that is where the second batch starts. -/
def Divided (text more : List SymbolType) : Prop :=
  ∃ statements, (BatchState.start text).Steps ⟨statements, .running, Config.fresh []⟩ ∧
    (BatchState.start (text ++ more)).Steps ⟨statements, .running, Config.fresh more⟩

theorem run_within {text : List SymbolType} (hends : EndsWhole text) (more : List SymbolType)
    (n : Nat) :
    (Within (parseBatch text n) ∧
      (BatchState.start (text ++ more)).Steps ((parseBatch text n).over more)) ∨
    Divided text more ∨ Doomed (parseBatch text n) := by
  induction n with
  | zero =>
      refine .inl ⟨⟨rfl, (fun hend => by cases hend), hends, fun _ => rfl⟩, ?_⟩
      exact .refl
  | succ n ih =>
      rcases ih with ⟨hwithin, hsteps⟩ | hdivided | hdoomed
      · by_cases htext : (parseBatch text n).parser.text = []
        · -- all of the text is in statements
          have hstate := within_done hwithin htext
          refine .inr (.inl ⟨(parseBatch text n).statements, ?_, ?_⟩)
          · rw [← hstate]
            exact steps_parseBatch text n
          · rw [hstate] at hsteps
            exact hsteps
        · rcases step_within (parseBatch_sound text n) hwithin htext more with
            ⟨hwithin', hover⟩ | hdoomed
          · exact .inl ⟨hwithin', hsteps.tail hover⟩
          · exact .inr (.inr hdoomed)
      · exact .inr (.inl hdivided)
      · exact .inr (.inr (step_doomed (parseBatch_sound text n) hdoomed))

/-- Where a text that ends in `;` is a whole batch, what comes behind it is
parsed on its own. -/
theorem parse_append {text : List SymbolType} (hends : EndsWhole text)
    (hfinished : (parse text).phase = .finished) (more : List SymbolType) :
    parse (text ++ more) = (parse more).behind (parse text).statements := by
  rcases run_within hends more (moveBound text) with ⟨hwithin, -⟩ | hdivided | hdoomed
  · have hrunning : (parse text).phase = .running := hwithin.phase
    rw [hfinished] at hrunning
    cases hrunning
  · obtain ⟨statements, hfirst, hboth⟩ := hdivided
    have hparse : parse text = ⟨statements, .finished, Config.fresh []⟩ :=
      BatchState.Steps.parse_eq (hfirst.trans (end_steps rfl rfl)) (by simp)
    have hsecond := steps_behind (steps_parseBatch more (moveBound more)) statements
    have hstart : (BatchState.start more).behind statements =
        ⟨statements, .running, Config.fresh more⟩ := by
      simp only [BatchState.behind, BatchState.start, List.append_nil]
    rw [hstart] at hsecond
    rw [hparse]
    exact BatchState.Steps.parse_eq (hboth.trans hsecond) (parse_stopped more)
  · rcases hdoomed with ⟨statement, hfailed⟩ | ⟨hrunning, -⟩
    · have hfailed' : (parse text).phase = .failed statement := hfailed
      rw [hfinished] at hfailed'
      cases hfailed'
    · have hrunning' : (parse text).phase = .running := hrunning
      rw [hfinished] at hrunning'
      cases hrunning'

theorem parse_append_deleteAndQuit :
    parse (statementTokens [deleteStatement] ++ statementTokens [quitStatement]) =
      (parse (statementTokens [quitStatement])).behind
        (parse (statementTokens [deleteStatement])).statements := by
  have htrees : BatchTrees [deleteStatement] := ⟨deleteStatement_tree _, trivial⟩
  have hdelete : parse (statementTokens [deleteStatement]) =
      ⟨[deleteStatement], .finished, Config.fresh []⟩ := htrees.parse_eq rfl
  refine parse_append ?_ (by rw [hdelete]) _
  intro token htoken
  cases htoken
  rfl

end DdbShell
