import DdbShell.Parser.Concatenation

/-!
Every statement that `parse_batch` returns obeys the declared precedences, in
batches that fail and in batches that lose tokens too. A batch that comes back
whole is therefore what the grammar and its precedences make of the text: the
parser neither misses a batch nor invents one.
-/

namespace DdbShell

open LR (Config Tree)

/-! ### The trees of a batch -/

/-- What the automaton has made of the text so far. -/
structure BatchMade (b : BatchState) : Prop where
  parser : b.parser.Made statementGrammar SymbolType.kind
  statements : ∀ tree ∈ b.statements,
    (∃ next, LR.Acted statementGrammar SymbolType.kind [] next tree) ∧ semanticError tree = false

theorem fresh_made (text : List SymbolType) :
    (Config.fresh text).Made statementGrammar SymbolType.kind := trivial

theorem accepted_made {b : BatchState} (hb : BatchMade b) {tree : ParseTree}
    {c : Config SymbolType Nonterminal} {next : Option Terminal}
    (htree : LR.Acted statementGrammar SymbolType.kind [] next tree) :
    BatchMade (b.accepted tree c) := by
  rcases accepted_cases b tree c with
    ⟨-, hstatements, left, hparser⟩ | ⟨haccepted, hsemantic, -⟩
  · refine ⟨?_, ?_⟩
    · rw [hparser]
      exact fresh_made left
    · rw [hstatements]
      exact hb.statements
  · rw [haccepted]
    refine ⟨fresh_made _, fun statement hstatement => ?_⟩
    rcases List.mem_append.mp hstatement with hstatement | hstatement
    · exact hb.statements statement hstatement
    · obtain rfl := List.mem_singleton.mp hstatement
      exact ⟨⟨next, htree⟩, hsemantic⟩

theorem step_batchMade {b : BatchState} (hsound : BatchSound b) (hb : BatchMade b) :
    BatchMade b.step := by
  unfold BatchState.step
  split
  · split
    · rename_i parser hstep
      exact ⟨LR.step_made statementGrammar_startApart hsound.parser hb.parser hstep, hb.statements⟩
    · rename_i tree parser hstep
      exact accepted_made hb
        (LR.accept_made statementGrammar_startApart hsound.parser hb.parser hstep)
    · exact ⟨fresh_made _, hb.statements⟩
  · exact hb
  · exact hb

theorem parseBatch_made (text : List SymbolType) (n : Nat) : BatchMade (parseBatch text n) := by
  induction n with
  | zero => exact ⟨fresh_made text, fun tree htree => by cases htree⟩
  | succ n ih => exact step_batchMade (parseBatch_sound text n) ih

/-! ### Statements that come back -/

/-- A statement obeys the precedences whatever comes after it. -/
theorem statement_obeys {text : List SymbolType} {n : Nat} {tree : ParseTree}
    (h : tree ∈ (parseBatch text n).statements) :
    LR.Obeys statementGrammar SymbolType.kind [] none tree := by
  obtain ⟨⟨next, hacted⟩, -⟩ := (parseBatch_made text n).statements tree h
  have hvalid := ((parseBatch_sound text n).derived tree h).1
  exact LR.obeys_of_acted statementGrammar_startApart statementGrammar_follows
    statementGrammar_obeyed hvalid [] next none hacted (by simp)

theorem input_unranked {rhs : List Symbol} (h : rhs ∈ productions .input) :
    statementGrammar.rulePrec rhs = none := by
  have hall : (productions .input).all fun rhs => (statementGrammar.rulePrec rhs).isNone := by
    decide
  simpa using List.all_eq_true.mp hall rhs h

/-- What comes after its `;` is nothing to a statement. -/
theorem obeys_terminated {front : List ParseTree} {token : SymbolType}
    (hvalid : Tree.Valid SymbolType.kind statementGrammar (.node .input (front ++ [.leaf token])))
    (h : LR.Obeys statementGrammar SymbolType.kind [] none (.node .input (front ++ [.leaf token])))
    (next : Option Terminal) :
    LR.Obeys statementGrammar SymbolType.kind [] next (.node .input (front ++ [.leaf token])) := by
  rw [LR.Obeys, LR.obeysAll_append] at h ⊢
  cases hvalid with
  | node hrule hchildren => exact ⟨h.1, fun t _ => LR.yields_of_rule (input_unranked hrule)⟩

/-- The alternatives of `input`, by what they end in. -/
theorem terminated_of_ends {children : List ParseTree}
    (hvalid : Tree.Valid SymbolType.kind statementGrammar (.node .input children))
    (hends : EndsInSemicolon (.node .input children)) : Terminated (.node .input children) := by
  obtain ⟨body, last, hyield, hlast⟩ := hends
  cases hvalid with
  | node hrule hchildren =>
      rcases List.eq_nil_or_concat children with rfl | ⟨front, child, rfl⟩
      · have hlength := congrArg List.length hyield
        simp [Tree.yield, Tree.yieldAll] at hlength
      · rw [List.concat_eq_append] at hrule hchildren hyield ⊢
        cases child with
        | leaf token => exact ⟨front, token, rfl⟩
        | node A grandchildren =>
            exfalso
            rw [List.map_append, List.map_singleton] at hrule
            -- an alternative that ends in a command
            have hchecked : lastChecked ((front ++ [LR.Tree.node A grandchildren]).map
                (Tree.symbol SymbolType.kind)).reverse = true := by
              have hall : (productions .input).all fun rhs =>
                  rhs.getLast? = some (tok .semicolon) || lastChecked rhs.reverse := by
                decide
              have hrhs := List.all_eq_true.mp hall _ hrule
              rw [List.map_append, List.map_singleton]
              simpa [Tree.symbol, tok] using hrhs
            have hlasts := yieldAll_last hchildren hchecked
              (fun tree htree hopen => yield_last (hchildren tree htree) hopen)
            rw [Tree.yield] at hyield
            exact hlasts last (by rw [hyield]; simp) hlast

theorem yield_ne_nil {A : Nonterminal} {child : ParseTree} {children : List ParseTree}
    (hvalid : Tree.Valid SymbolType.kind statementGrammar (.node A (child :: children)))
    (hsymbol : (LR.Tree.node A (child :: children)).symbol SymbolType.kind = nt .input) :
    (LR.Tree.node A (child :: children)).yield ≠ [] := by
  obtain rfl : A = .input := LR.Sym.n.inj hsymbol
  intro hempty
  rw [Tree.yield, Tree.yieldAll, List.append_eq_nil_iff] at hempty
  cases hvalid with
  | node hrule hchildren =>
      have hnull := LR.nullable_of_yield (fun A rhs hrhs => statementRanking.nullable_of_all hrhs)
        (hchildren child List.mem_cons_self) hempty.1
      have hall : (productions .input).all fun rhs =>
          rhs.head?.all fun X => !statementGrammar.nullableSym X := by
        decide +kernel
      have hrhs := List.all_eq_true.mp hall _ hrule
      rw [List.map_cons, List.head?_cons, Option.all_some, hnull] at hrhs
      cases hrhs

/-! ### Batches that come back whole -/

theorem batchTrees_of_obeying {trees : List ParseTree}
    (hvalid : ∀ tree ∈ trees, tree.Valid SymbolType.kind statementGrammar ∧
      tree.symbol SymbolType.kind = nt .input)
    (hmade : ∀ tree ∈ trees, semanticError tree = false)
    (hwritten : ∀ tree ∈ trees, ∀ lhs, tree ≠ .node lhs [])
    (hobeys : ∀ tree ∈ trees, LR.Obeys statementGrammar SymbolType.kind [] none tree)
    (hended : ∀ before tree after, trees = before ++ tree :: after →
      EndsInSemicolon tree ∨ statementTokens after = []) : BatchTrees trees := by
  induction trees with
  | nil => trivial
  | cons tree trees ih =>
      obtain ⟨htree, hsymbol⟩ := hvalid tree List.mem_cons_self
      have herror := hmade tree List.mem_cons_self
      have hnonnil := hwritten tree List.mem_cons_self
      obtain ⟨A, child, children, rfl⟩ :
          ∃ A child children, tree = .node A (child :: children) := by
        cases tree with
        | leaf token => cases hsymbol
        | node A children =>
            cases children with
            | nil => exact absurd rfl (hnonnil A)
            | cons child children => exact ⟨A, child, children, rfl⟩
      have hwhole := hobeys _ List.mem_cons_self
      have hnonempty := yield_ne_nil htree hsymbol
      rw [BatchTrees]
      refine ⟨?_, ih (fun t ht => hvalid t (List.mem_cons_of_mem _ ht))
        (fun t ht => hmade t (List.mem_cons_of_mem _ ht))
        (fun t ht => hwritten t (List.mem_cons_of_mem _ ht))
        (fun t ht => hobeys t (List.mem_cons_of_mem _ ht))
        (fun before t after hsplit => hended (_ :: before) t after (by rw [hsplit]; rfl))⟩
      obtain rfl : A = .input := LR.Sym.n.inj hsymbol
      rcases hended [] _ trees rfl with hends | hlast
      · have hterminated := terminated_of_ends htree hends
        refine ⟨htree, hsymbol, hnonempty, ?_, .inr hterminated, herror⟩
        obtain ⟨front, token, heq⟩ := hterminated
        rw [heq] at htree hwhole ⊢
        exact obeys_terminated htree hwhole _
      · rw [hlast]
        exact ⟨htree, hsymbol, hnonempty, hwhole, .inl rfl, herror⟩

/-- Tokens are lost only where a step drops one. -/
theorem faithful_of_whole {text : List SymbolType} {n : Nat}
    (hwhole : (parseBatch text n).tokens = text) : BatchFaithful text (parseBatch text n) := by
  rw [batch_faithful_iff]
  intro m hm
  by_contra hboundary
  have hdrop := step_drops hboundary
  have hbefore := parseBatch_tokens_le text (Nat.zero_le m)
  have hafter := parseBatch_tokens_le text (Nat.succ_le_of_lt hm)
  have hstart : (parseBatch text 0).tokens.length = text.length := rfl
  rw [parseBatch] at hafter
  have hall := congrArg List.length hwhole
  omega

/-- Every statement that comes back is a derivation of `input` that obeys the
precedences, and statements with all tokens of the text come back exactly where
they are the batch that the grammar derives for it. -/
theorem parse_obeys (text : List SymbolType) :
    (∀ tree ∈ (parse text).statements,
      tree.Valid SymbolType.kind statementGrammar ∧
        tree.symbol SymbolType.kind = nt .input ∧
        LR.Obeys statementGrammar SymbolType.kind [] none tree) ∧
      ∀ trees, BatchTrees trees ∧ statementTokens trees = text ↔
        (parse text).statements = trees ∧ statementTokens trees = text := by
  refine ⟨fun tree htree => ?_, fun trees => ⟨?_, ?_⟩⟩
  · obtain ⟨hvalid, hsymbol⟩ := (parseBatch_sound text _).derived tree htree
    exact ⟨hvalid, hsymbol, statement_obeys htree⟩
  · rintro ⟨htrees, htokens⟩
    rw [htrees.parse_eq htokens]
    exact ⟨rfl, htokens⟩
  · rintro ⟨rfl, htokens⟩
    refine ⟨?_, htokens⟩
    -- nothing is left over, since a run never gains tokens
    have hwhole : (parse text).tokens = text := by
      have hle : (parse text).tokens.length ≤ text.length :=
        parseBatch_tokens_le text (Nat.zero_le (moveBound text))
      rw [BatchState.tokens, htokens, List.length_append] at hle
      have hnil : (parse text).phase.tokens ++ (parse text).parser.text = [] :=
        List.length_eq_zero_iff.mp (by omega)
      rw [BatchState.tokens, htokens, hnil, List.append_nil]
    have hfaithful : BatchFaithful text (parse text) := faithful_of_whole hwhole
    refine batchTrees_of_obeying hfaithful.derived
      (fun tree htree => ((parseBatch_made text _).statements tree htree).2) hfaithful.written
      (fun tree htree => statement_obeys htree) ?_
    intro before tree after hsplit
    rcases hfaithful.ended before tree after hsplit with hends | hnone
    · exact .inl hends
    · exact .inr (List.append_eq_nil_iff.mp hnone).1

end DdbShell
