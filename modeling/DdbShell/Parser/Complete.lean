import DdbShell.Parser.Automaton

/-!
`parse_batch` finds every batch of statements that the grammar derives under
the declared precedences. The grammar and the precedences leave no choice: a
text is at most one such batch.
-/

namespace DdbShell

open LR (Config Tree Move)

/-! ### Statements under the precedences -/

/-- A statement that has its `;`. -/
def Terminated (tree : ParseTree) : Prop :=
  ∃ front token, tree = .node .input (front ++ [.leaf token])

/-- A statement the grammar derives under the precedences, before the token
that comes next: it has its `;`, or nothing comes next. -/
structure StatementTree (next : Option Terminal) (tree : ParseTree) : Prop where
  valid : tree.Valid SymbolType.kind statementGrammar
  symbol : tree.symbol SymbolType.kind = nt .input
  nonempty : tree.yield ≠ []
  obeys : LR.Obeys statementGrammar SymbolType.kind [] next tree
  ended : next = none ∨ Terminated tree
  sound : semanticError tree = false

/-- The statements of a batch, each before the tokens of those behind it. -/
def BatchTrees : List ParseTree → Prop
  | [] => True
  | tree :: trees =>
      StatementTree ((statementTokens trees).head?.map SymbolType.kind) tree ∧ BatchTrees trees

/-! ### The loop at work -/

/-- The batch loop follows the moves of its parser. -/
theorem steps_of_moves {b : BatchState} (hphase : b.phase = .running)
    {c : Config SymbolType Nonterminal}
    (h : LR.Moves statementGrammar SymbolType.kind b.parser c) :
    b.Steps { b with parser := c } := by
  induction h with
  | refl => exact .refl
  | tail _ hstep ih =>
      refine ih.tail ?_
      simp only [BatchState.step, hphase, hstep]

theorem moves_sound {c c' : Config SymbolType Nonterminal}
    (h : LR.Moves statementGrammar SymbolType.kind c c')
    (hc : c.Sound statementGrammar SymbolType.kind) :
    c'.Sound statementGrammar SymbolType.kind := by
  induction h with
  | refl => exact hc
  | tail _ hstep ih => exact (LR.step_next statementGrammar_startApart ih hstep).1

theorem fresh_before (text : List SymbolType) :
    (Config.fresh text : Config SymbolType Nonterminal).Before [] text :=
  ⟨rfl, rfl, fun hend => by cases hend⟩

/-- The parts of a statement come onto the stack, and its rule is complete. -/
theorem statement_reads {children : List ParseTree} {rest : List SymbolType}
    (h : StatementTree (rest.head?.map SymbolType.kind) (.node .input children)) :
    (∃ c, LR.Moves statementGrammar SymbolType.kind
        (Config.fresh (Tree.yieldAll children ++ rest)) c ∧ c.Before children.reverse rest) ∧
      ⟨.input, (children.map (Tree.symbol SymbolType.kind)).reverse, []⟩ ∈
        statementGrammar.closure (statementGrammar.stateOf
          (children.reverse.map (Tree.symbol SymbolType.kind))) := by
  have hvalid := h.valid
  cases hvalid with
  | node hrule hchildren =>
      have hobeys := h.obeys
      rw [LR.Obeys] at hobeys
      have hinitial : ⟨.input, [], children.map (Tree.symbol SymbolType.kind)⟩ ∈
          statementGrammar.closure (statementGrammar.stateOf []) :=
        LR.mem_closure_of_mem (List.mem_map.mpr ⟨_, hrule, rfl⟩)
      have hlast : (∀ X ∈ (children.map (Tree.symbol SymbolType.kind)).getLast?, ∃ t, X = .t t) ∨
          ∀ t ∈ rest.head?.map SymbolType.kind, LR.Grammar.mayFollow follow .input t = true := by
        rcases h.ended with hnone | ⟨front, token, hfront⟩
        · rw [hnone]
          exact .inr fun t ht => by cases ht
        · refine .inl ?_
          obtain ⟨-, rfl⟩ := Tree.node.inj hfront
          rw [List.map_append, List.map_singleton, List.getLast?_concat]
          rintro X hX
          exact ⟨token.kind, (Option.some.inj hX).symm⟩
      obtain ⟨hrun, hend⟩ := LR.reads_children statementGrammar_settled children [] [] rest
        hinitial (statementGrammar_follows.inside .input _ hrule) hchildren hobeys.1 hlast
        (fun tree htree => LR.reads_tree statementGrammar_settled (hchildren tree htree))
      rw [List.append_nil] at hrun hend
      rw [List.append_nil] at hend
      exact ⟨hrun _ (fresh_before _), hend⟩

/-- At the end of the text a complete rule is reduced. -/
theorem reduces_at_end {symbols rhs : List Symbol} {A : Nonterminal}
    (hi : ⟨A, rhs.reverse, []⟩ ∈
      statementGrammar.closure (statementGrammar.stateOf symbols)) :
    statementGrammar.action (statementGrammar.closure (statementGrammar.stateOf symbols)) none =
      .reduce ⟨A, rhs.reverse, []⟩ :=
  LR.action_reduce_of_complete statementGrammar_settled hi (fun t ht => by cases ht)
    (fun t ht => by cases ht)

/-- A derivation of the start symbol that is complete is accepted. -/
theorem accept_of_reduce {c : Config SymbolType Nonterminal} {children : List ParseTree}
    (hstack : c.stack = children.reverse)
    (hstep : statementGrammar.step SymbolType.kind c =
      statementGrammar.reduce ⟨.input, (children.map (Tree.symbol SymbolType.kind)).reverse, []⟩
        c) :
    statementGrammar.step SymbolType.kind c =
      .accept (.node .input children) { c with stack := [] } := by
  have hlength : ((children.map (Tree.symbol SymbolType.kind)).reverse).length =
      c.stack.length := by
    rw [hstack]
    simp
  rw [hstep]
  have hreduce : statementGrammar.reduce
      ⟨.input, (children.map (Tree.symbol SymbolType.kind)).reverse, []⟩ c =
        .accept (.node .input
          (c.stack.take (children.map (Tree.symbol SymbolType.kind)).reverse.length).reverse)
          { c with
            stack := c.stack.drop (children.map (Tree.symbol SymbolType.kind)).reverse.length } :=
    rfl
  rw [hreduce, hlength, List.take_length, List.drop_length, hstack, List.reverse_reverse]

/-- The alternatives of `input` that end in a token end in `;`. -/
theorem terminated_symbols {front : List Symbol} {t : Terminal}
    (h : front ++ [LR.Sym.t t] ∈ productions .input) :
    (front ++ [LR.Sym.t t]).reverse = [tok .semicolon] ∨
      (front ++ [LR.Sym.t t]).reverse = [tok .semicolon, nt .command] ∨
      (front ++ [LR.Sym.t t]).reverse = [tok .semicolon, nt .explainable, tok .kExplain] := by
  have hlast : (front ++ [LR.Sym.t t]).getLast? = some (LR.Sym.t t) := List.getLast?_concat
  generalize front ++ [LR.Sym.t t] = symbols at h hlast
  simp only [productions, List.mem_cons, List.not_mem_nil, or_false] at h
  rcases h with rfl | rfl | rfl | rfl | rfl | rfl
  · cases hlast
  · exact .inl rfl
  · exact .inr (.inl rfl)
  · cases hlast
  · exact .inr (.inr rfl)
  · cases hlast

/-- After its parts a statement is accepted, and what comes next is left to the
scanner. -/
theorem statement_accepts {children : List ParseTree} {rest : List SymbolType}
    (h : StatementTree (rest.head?.map SymbolType.kind) (.node .input children)) :
    ∃ c c', LR.Moves statementGrammar SymbolType.kind
        (Config.fresh (Tree.yieldAll children ++ rest)) c ∧
      statementGrammar.step SymbolType.kind c = .accept (.node .input children) c' ∧
      c'.input = rest := by
  obtain ⟨⟨c, hmoves, hc⟩, hend⟩ := statement_reads h
  rcases h.ended with hnone | ⟨front, token, hfront⟩
  · -- at the end of the text
    obtain rfl : rest = [] := by
      cases rest with
      | nil => rfl
      | cons k ks => cases hnone
    have haction := reduces_at_end hend
    obtain ⟨c₁, hmoves₁, hc₁, hstep⟩ := LR.comes_to_reduce hc haction
    refine ⟨c₁, { c₁ with stack := [] }, hmoves.trans hmoves₁,
      accept_of_reduce hc₁.stack hstep, ?_⟩
    exact (List.append_eq_nil_iff.mp hc₁.unread).2
  · -- over the `;` nothing has been read ahead
    obtain ⟨-, rfl⟩ := Tree.node.inj hfront
    have hrule : (front ++ [Tree.leaf token]).map (Tree.symbol SymbolType.kind) ∈
        productions .input := by
      have hvalid := h.valid
      cases hvalid with
      | node hrule hchildren => exact hrule
    rw [List.map_append, List.map_singleton] at hrule
    have hneeds : statementGrammar.needsToken
        (statementGrammar.items SymbolType.kind c) = false := by
      rw [hc.items, List.map_reverse, List.map_append, List.map_singleton]
      exact terminated_needs_no_token (terminated_symbols hrule)
    have hlook : c.look = .unread := by
      by_contra hread
      have hsound := moves_sound hmoves (LR.fresh_sound _ _ _)
      have hstack := hc.stack
      rw [List.reverse_append, List.reverse_singleton, List.singleton_append] at hstack
      rw [hsound.needed _ _ hstack hread] at hneeds
      cases hneeds
    have haction := reduces_at_end hend
    refine ⟨c, { c with stack := [] }, hmoves, accept_of_reduce hc.stack ?_, ?_⟩
    · rw [← hc.items] at haction
      rw [LR.Grammar.step, hneeds, hlook, LR.Look.terminal, haction]
      rfl
    · have hunread := hc.unread
      rwa [hlook] at hunread

/-! ### Whole batches -/

/-- A statement in front of the rest of the text becomes the next one of the
batch, and a fresh parser starts behind it. -/
theorem statement_steps {b : BatchState} (hphase : b.phase = .running) {tree : ParseTree}
    {rest : List SymbolType} (hparser : b.parser = Config.fresh (tree.yield ++ rest))
    (h : StatementTree (rest.head?.map SymbolType.kind) tree) :
    b.Steps { b with statements := b.statements ++ [tree], parser := Config.fresh rest } := by
  cases tree with
  | leaf token => cases h.symbol
  | node lhs children =>
      obtain rfl : lhs = .input := LR.Sym.n.inj h.symbol
      have hchildren : children ≠ [] := by
        rintro rfl
        exact h.nonempty rfl
      obtain ⟨child, others, rfl⟩ := List.exists_cons_of_ne_nil hchildren
      obtain ⟨c, c', hmoves, haccept, hinput⟩ := statement_accepts h
      rw [Tree.yield] at hparser
      rw [← hparser] at hmoves
      refine (steps_of_moves hphase hmoves).tail ?_
      simp only [BatchState.step, hphase, haccept, BatchState.accepted, h.sound,
        Bool.false_eq_true, if_false, BatchState.returned, hinput]

theorem batch_steps {trees : List ParseTree} (h : BatchTrees trees) {b : BatchState}
    (hphase : b.phase = .running) (hparser : b.parser = Config.fresh (statementTokens trees)) :
    b.Steps ⟨b.statements ++ trees, .finished, Config.fresh []⟩ := by
  induction trees generalizing b with
  | nil =>
      rw [List.append_nil]
      exact end_steps hphase hparser
  | cons tree trees ih =>
      rw [BatchTrees] at h
      have hfirst := statement_steps hphase hparser h.1
      have hrest := ih h.2 (b := { b with
        statements := b.statements ++ [tree], parser := Config.fresh (statementTokens trees) })
        hphase rfl
      rw [List.append_assoc, List.singleton_append] at hrest
      exact hfirst.trans hrest

theorem BatchTrees.parse_eq {trees : List ParseTree} (h : BatchTrees trees)
    {text : List SymbolType} (htokens : statementTokens trees = text) :
    parse text = ⟨trees, .finished, Config.fresh []⟩ := by
  subst htokens
  have hsteps := batch_steps h (b := .start (statementTokens trees)) rfl rfl
  exact hsteps.parse_eq (by simp)

/-- Every batch that the grammar derives under the precedences is what
`parse_batch` returns for its tokens. -/
theorem parse_complete {trees : List ParseTree} (h : BatchTrees trees) :
    parse (statementTokens trees) = ⟨trees, .finished, Config.fresh []⟩ :=
  h.parse_eq rfl

/-- The derivation of `DELETE FROM t;`. -/
def deleteStatement : ParseTree :=
  .node .input [
    .node .command [.node .dmlCommand [.node .writeCommand [.node .deleteCommand [
      .leaf (keywordToken .kDelete "DELETE"), .leaf (keywordToken .kFrom "FROM"),
      .node .tableOptionalIndexName [.node .tableName [.node .string [.leaf (wordToken "t")]]],
      .node .optionalWhereClause [], .node .optionalRatelimit [],
      .node .optionalReturnValue []]]]],
    .leaf (keywordToken .semicolon ";")]

/-- The derivation of `QUIT` at the end of a text. -/
def quitStatement : ParseTree :=
  .node .input [.node .command [.node .controlCommand [.node .quitCommand [
    .leaf (keywordToken .kQuit "QUIT")]]]]

theorem deleteStatement_tree (next : Option Terminal) : StatementTree next deleteStatement := by
  refine ⟨by decide +kernel, rfl, by decide, LR.obeys_of_single (by decide +kernel) _ _ ?_,
    .inr ⟨[_], _, rfl⟩, rfl⟩
  have hnext : next.toList.countP statementGrammar.ranked ≤ 1 :=
    Nat.le_trans List.countP_le_length (by cases next <;> simp)
  exact Nat.le_trans (Nat.le_of_eq (Nat.zero_add _)) hnext

theorem quitStatement_tree : StatementTree none quitStatement :=
  ⟨by decide +kernel, rfl, by decide, LR.obeys_of_single (by decide +kernel) _ _ (by decide),
    .inl rfl, rfl⟩

theorem parse_complete_deleteAndQuit :
    parse (statementTokens [deleteStatement, quitStatement]) =
      ⟨[deleteStatement, quitStatement], .finished, Config.fresh []⟩ :=
  parse_complete ⟨deleteStatement_tree _, quitStatement_tree, trivial⟩

/-- A text is one batch at most. -/
theorem batchTrees_unambiguous {trees trees' : List ParseTree} (h : BatchTrees trees)
    (h' : BatchTrees trees') (htokens : statementTokens trees = statementTokens trees') :
    trees = trees' := by
  have hparse := h'.parse_eq rfl
  rw [h.parse_eq htokens] at hparse
  exact congrArg BatchState.statements hparse

end DdbShell
