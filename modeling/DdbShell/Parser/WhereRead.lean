import DdbShell.Parser.ScriptParses

/-!
Every WHERE clause that is parsed reads as the declared precedences say. A
tree that obeys them has no AND or OR directly under a NOT, none on the right
of an AND and no OR on its left, which is what the levels of `SourceExpr` say.
So the condition of any command that comes back, in whatever statement of
whatever batch, is built by the actions from an expression that its own tokens
spell.
-/

namespace DdbShell

open Infix (Prec)
open LR (Tree)

/-! ### Elements -/

/-- What the tokens of a symbol spell, where that is part of an expression. -/
def SymbolSpells : Symbol → Semantic → List SymbolType → Prop
  | .t t, v, ts => ∃ k : SymbolType, k.kind = t ∧ v = .token k ∧ ts = [k]
  | .n .string, v, ts => ∃ k s, Literal.stringValue k = some s ∧ v = .string s ∧ ts = [k]
  | .n .leeRhs, v, ts => ∃ value, Literal.LeeRhs ts value ∧ v = .value value
  | .n .leeRhsList, v, ts => ∃ list, Literal.Derives ts (.leeRhsList list) ∧ v = .values list
  | .n .mapElementList, v, ts =>
      ∃ map, Literal.Derives ts (.mapElementList map) ∧ v = .entries map
  | .n .leeLhs, v, ts => ∃ path, PathSpelled path ts ∧ v = .string path
  | .n .comparisonOp, v, ts => ∃ k op, comparisonOf k = some op ∧ v = .comparison op ∧ ts = [k]
  | .n .attributeType, v, ts =>
      ∃ k type, attributeTypeOf k = some type ∧ v = .attributeType type ∧ ts = [k]
  | .n .logicalExpressionElement, v, ts => ∃ e : Element, e.Spelled ts ∧ v = .condition e.build
  | .n _, _, _ => True

inductive SymbolsSpell : List Symbol → List Semantic → List SymbolType → Prop where
  | nil : SymbolsSpell [] [] []
  | cons {X : Symbol} {v : Semantic} {ts us : List SymbolType} {Xs : List Symbol}
      {vs : List Semantic} (first : SymbolSpells X v ts) (others : SymbolsSpell Xs vs us) :
      SymbolsSpell (X :: Xs) (v :: vs) (ts ++ us)

namespace SymbolsSpell

variable {X : Symbol} {Xs : List Symbol} {vs : List Semantic} {ts : List SymbolType}

theorem sub (h : SymbolsSpell (X :: Xs) vs ts) : ∃ v ts' vs' us,
    SymbolSpells X v ts' ∧ vs = v :: vs' ∧ ts = ts' ++ us ∧ SymbolsSpell Xs vs' us := by
  cases h with
  | cons first others => exact ⟨_, _, _, _, first, rfl, rfl, others⟩

theorem token {t : Terminal} (h : SymbolsSpell (.t t :: Xs) vs ts) : ∃ (k : SymbolType) (vs' : _)
    (us : List SymbolType), k.kind = t ∧ vs = .token k :: vs' ∧ ts = k :: us ∧
      SymbolsSpell Xs vs' us := by
  obtain ⟨v, ts', vs', us, ⟨k, hk, rfl, rfl⟩, rfl, rfl, hothers⟩ := h.sub
  exact ⟨k, vs', us, hk, rfl, rfl, hothers⟩

theorem ends (h : SymbolsSpell [] vs ts) : vs = [] ∧ ts = [] := by
  cases h
  exact ⟨rfl, rfl⟩

/-- The last symbol has the rest of the tokens. -/
theorem last (h : SymbolsSpell [X] vs ts) : ∃ v, SymbolSpells X v ts ∧ vs = [v] := by
  obtain ⟨v, ts', vs', us, hv, rfl, rfl, hothers⟩ := h.sub
  obtain ⟨rfl, rfl⟩ := hothers.ends
  exact ⟨v, by rwa [List.append_nil], rfl⟩

theorem lastToken {t : Terminal} (h : SymbolsSpell [.t t] vs ts) :
    ∃ k : SymbolType, k.kind = t ∧ vs = [.token k] ∧ ts = [k] := by
  obtain ⟨k, vs', us, hk, rfl, rfl, hothers⟩ := h.token
  obtain ⟨rfl, rfl⟩ := hothers.ends
  exact ⟨k, hk, rfl, rfl⟩

end SymbolsSpell

/-- A path behind the point of another one. -/
theorem PathSpelled.join {p q : String} {ts us : List SymbolType} {d : SymbolType}
    (front : PathSpelled p ts) (dot : d.kind = .character '.') (h : PathSpelled q us) :
    PathSpelled (p ++ "." ++ q) (ts ++ d :: us) := by
  induction h with
  | name name => exact .field front dot name
  | index _ opens number closes ih =>
      have h := ih.index opens number closes
      simpa only [String.append_assoc, List.append_assoc, List.cons_append] using h
  | field _ dot' name ih =>
      have h := ih.field dot' name
      simpa only [String.append_assoc, List.append_assoc, List.cons_append] using h

theorem Literal.Derives.list_ne_nil {ts : List SymbolType} {list : List Value}
    (h : Literal.Derives ts (.leeRhsList list)) : list ≠ [] := by
  cases h <;> simp

namespace SymbolsSpell

variable {rhs : List Symbol} {vs : List Semantic} {ts : List SymbolType}

theorem string (hrhs : rhs ∈ productions .string) (h : SymbolsSpell rhs vs ts) :
    SymbolSpells (nt .string) (ruleAction .string vs) ts := by
  have hvalue : ∀ {k : SymbolType} {s : String}, Literal.stringValue k = some s →
      SymbolSpells (nt .string) (ruleAction .string [.token k]) [k] := by
    intro k s hs
    refine ⟨k, s, hs, ?_, rfl⟩
    change ((Literal.stringValue k).map Semantic.string).getD .other = _
    rw [hs]
    rfl
  simp only [productions, List.mem_cons, List.not_mem_nil, or_false] at hrhs
  rcases hrhs with rfl | rfl
  · obtain ⟨k, hk, rfl, rfl⟩ := h.lastToken
    exact hvalue (by rw [Literal.stringValue, hk])
  · obtain ⟨k, hk, rfl, rfl⟩ := h.lastToken
    exact hvalue (by rw [Literal.stringValue, hk])

theorem leeLhs (hrhs : rhs ∈ productions .leeLhs) (h : SymbolsSpell rhs vs ts) :
    SymbolSpells (nt .leeLhs) (ruleAction .leeLhs vs) ts := by
  simp only [productions, List.mem_cons, List.not_mem_nil, or_false] at hrhs
  rcases hrhs with rfl | rfl | rfl
  · obtain ⟨_, ⟨k, s, hs, rfl, rfl⟩, rfl⟩ := h.last
    exact ⟨s, .name hs, rfl⟩
  · obtain ⟨_, ps, _, _, ⟨path, hpath, rfl⟩, rfl, rfl, h₁⟩ := h.sub
    obtain ⟨o, _, _, ho, rfl, rfl, h₂⟩ := h₁.token
    obtain ⟨n, _, _, hn, rfl, rfl, h₃⟩ := h₂.token
    obtain ⟨c, hc, rfl, rfl⟩ := h₃.lastToken
    exact ⟨_, hpath.index ho hn hc, rfl⟩
  · obtain ⟨_, ps, _, _, ⟨path, hpath, rfl⟩, rfl, rfl, h₁⟩ := h.sub
    obtain ⟨d, _, _, hd, rfl, rfl, h₂⟩ := h₁.token
    obtain ⟨_, ⟨field, hfield, rfl⟩, rfl⟩ := h₂.last
    exact ⟨_, hpath.join hd hfield, rfl⟩

theorem leeRhs (hrhs : rhs ∈ productions .leeRhs) (h : SymbolsSpell rhs vs ts) :
    SymbolSpells (nt .leeRhs) (ruleAction .leeRhs vs) ts := by
  have hvalue : ∀ {k : SymbolType} {v : Value}, Literal.LeeRhs [k] v →
      RuleAction.valueAction [.token k] = .value v →
      SymbolSpells (nt .leeRhs) (ruleAction .leeRhs [.token k]) [k] :=
    fun hderives hv => ⟨_, hderives, hv⟩
  simp only [productions, List.mem_cons, List.not_mem_nil, or_false] at hrhs
  rcases hrhs with rfl | rfl | rfl | rfl | rfl | rfl | rfl | rfl | rfl | rfl
  · obtain ⟨k, hk, rfl, rfl⟩ := h.lastToken
    exact hvalue (.wholeNumber hk) (by simp only [RuleAction.valueAction, hk])
  · obtain ⟨k, hk, rfl, rfl⟩ := h.lastToken
    exact hvalue (.floatingPoint hk) (by simp only [RuleAction.valueAction, hk])
  · obtain ⟨k, hk, rfl, rfl⟩ := h.lastToken
    exact hvalue (.dquoted hk) (by simp only [RuleAction.valueAction, hk])
  · obtain ⟨o, _, _, ho, rfl, rfl, h₁⟩ := h.token
    obtain ⟨_, us, _, _, ⟨list, hlist, rfl⟩, rfl, rfl, h₂⟩ := h₁.sub
    obtain ⟨c, hc, rfl, rfl⟩ := h₂.lastToken
    exact ⟨_, .list ho hlist hc, rfl⟩
  · obtain ⟨k, hk, rfl, rfl⟩ := h.lastToken
    exact hvalue (.true hk) (by simp only [RuleAction.valueAction, hk])
  · obtain ⟨k, hk, rfl, rfl⟩ := h.lastToken
    exact hvalue (.false hk) (by simp only [RuleAction.valueAction, hk])
  · obtain ⟨o, _, _, ho, rfl, rfl, h₁⟩ := h.token
    obtain ⟨_, us, _, _, ⟨map, hmap, rfl⟩, rfl, rfl, h₂⟩ := h₁.sub
    obtain ⟨c, hc, rfl, rfl⟩ := h₂.lastToken
    exact ⟨_, .map ho hmap hc, rfl⟩
  · obtain ⟨k, hk, rfl, rfl⟩ := h.lastToken
    exact hvalue (.null hk) (by simp only [RuleAction.valueAction, hk])
  · obtain ⟨o, _, _, ho, rfl, rfl, h₁⟩ := h.token
    obtain ⟨c, hc, rfl, rfl⟩ := h₁.lastToken
    exact ⟨_, .emptyList ho hc, if_pos ho⟩
  · obtain ⟨o, _, _, ho, rfl, rfl, h₁⟩ := h.token
    obtain ⟨c, hc, rfl, rfl⟩ := h₁.lastToken
    exact ⟨_, .emptyMap ho hc, if_neg (by rw [ho]; decide)⟩

theorem leeRhsList (hrhs : rhs ∈ productions .leeRhsList) (h : SymbolsSpell rhs vs ts) :
    SymbolSpells (nt .leeRhsList) (ruleAction .leeRhsList vs) ts := by
  simp only [productions, List.mem_cons, List.not_mem_nil, or_false] at hrhs
  rcases hrhs with rfl | rfl
  · obtain ⟨_, ⟨v, hv, rfl⟩, rfl⟩ := h.last
    exact ⟨_, .listOne hv, rfl⟩
  · obtain ⟨_, us, _, _, ⟨list, hlist, rfl⟩, rfl, rfl, h₁⟩ := h.sub
    obtain ⟨s, _, _, hs, rfl, rfl, h₂⟩ := h₁.token
    obtain ⟨_, ⟨v, hv, rfl⟩, rfl⟩ := h₂.last
    exact ⟨_, .listMore hlist hs hv, rfl⟩

theorem mapElementList (hrhs : rhs ∈ productions .mapElementList) (h : SymbolsSpell rhs vs ts) :
    SymbolSpells (nt .mapElementList) (ruleAction .mapElementList vs) ts := by
  simp only [productions, List.mem_cons, List.not_mem_nil, or_false] at hrhs
  rcases hrhs with rfl | rfl
  · obtain ⟨_, _, _, _, ⟨k, key, hkey, rfl, rfl⟩, rfl, rfl, h₁⟩ := h.sub
    obtain ⟨c, _, _, hc, rfl, rfl, h₂⟩ := h₁.token
    obtain ⟨_, ⟨v, hv, rfl⟩, rfl⟩ := h₂.last
    exact ⟨_, .mapOne hkey hc hv, rfl⟩
  · obtain ⟨_, us, _, _, ⟨map, hmap, rfl⟩, rfl, rfl, h₁⟩ := h.sub
    obtain ⟨s, _, _, hs, rfl, rfl, h₂⟩ := h₁.token
    obtain ⟨_, _, _, _, ⟨k, key, hkey, rfl, rfl⟩, rfl, rfl, h₃⟩ := h₂.sub
    obtain ⟨c, _, _, hc, rfl, rfl, h₄⟩ := h₃.token
    obtain ⟨_, ⟨v, hv, rfl⟩, rfl⟩ := h₄.last
    exact ⟨_, .mapMore hmap hs hkey hc hv, rfl⟩

theorem comparisonOp (hrhs : rhs ∈ productions .comparisonOp) (h : SymbolsSpell rhs vs ts) :
    SymbolSpells (nt .comparisonOp) (ruleAction .comparisonOp vs) ts := by
  simp only [productions, List.mem_cons, List.not_mem_nil, or_false] at hrhs
  rcases hrhs with rfl | rfl | rfl | rfl | rfl | rfl
  all_goals
    obtain ⟨k, hk, rfl, rfl⟩ := h.lastToken
    refine ⟨k, _, by rw [comparisonOf, hk], ?_, rfl⟩
    change RuleAction.comparisonAction [.token k] = _
    simp only [RuleAction.comparisonAction, hk]

theorem attributeType (hrhs : rhs ∈ productions .attributeType) (h : SymbolsSpell rhs vs ts) :
    SymbolSpells (nt .attributeType) (ruleAction .attributeType vs) ts := by
  simp only [productions, List.mem_cons, List.not_mem_nil, or_false] at hrhs
  rcases hrhs with rfl | rfl | rfl
  all_goals
    obtain ⟨k, hk, rfl, rfl⟩ := h.lastToken
    refine ⟨k, _, by rw [attributeTypeOf, hk], ?_, rfl⟩
    change RuleAction.attributeTypeAction [.token k] = _
    simp only [RuleAction.attributeTypeAction, hk]

/-- A function of a path: the keyword, the parenthesis and the path. -/
theorem function {k : TokenKind} {others : List Symbol}
    (h : SymbolsSpell (tok k :: chr '(' :: nt .leeLhs :: others) vs ts) :
    ∃ (f o : SymbolType) (path : String) (ps : List SymbolType) (vs' : _) (us : List SymbolType),
      f.kind = .kind k ∧ o.kind = .character '(' ∧ PathSpelled path ps ∧
        vs = .token f :: .token o :: .string path :: vs' ∧ ts = f :: o :: (ps ++ us) ∧
          SymbolsSpell others vs' us := by
  obtain ⟨f, _, _, hf, rfl, rfl, h₁⟩ := h.token
  obtain ⟨o, _, _, ho, rfl, rfl, h₂⟩ := h₁.token
  obtain ⟨_, ps, vs', us, ⟨path, hpath, rfl⟩, rfl, rfl, h₃⟩ := h₂.sub
  exact ⟨f, o, path, ps, vs', us, hf, ho, hpath, rfl, rfl, h₃⟩

theorem logicalExpressionElement (hrhs : rhs ∈ productions .logicalExpressionElement)
    (h : SymbolsSpell rhs vs ts) :
    SymbolSpells (nt .logicalExpressionElement) (ruleAction .logicalExpressionElement vs) ts := by
  simp only [productions, List.mem_cons, List.not_mem_nil, or_false] at hrhs
  rcases hrhs with rfl | rfl | rfl | rfl | rfl | rfl | rfl | rfl | rfl | rfl | rfl
  · -- a comparison
    obtain ⟨_, ps, _, _, ⟨path, hpath, rfl⟩, rfl, rfl, h₁⟩ := h.sub
    obtain ⟨_, _, _, _, ⟨k, op, hop, rfl, rfl⟩, rfl, rfl, h₂⟩ := h₁.sub
    obtain ⟨_, ⟨v, hv, rfl⟩, rfl⟩ := h₂.last
    exact ⟨_, .comparison hpath hop hv, rfl⟩
  · -- IS NULL
    obtain ⟨_, ps, _, _, ⟨path, hpath, rfl⟩, rfl, rfl, h₁⟩ := h.sub
    obtain ⟨t, _, _, ht, rfl, rfl, h₂⟩ := h₁.token
    obtain ⟨u, hu, rfl, rfl⟩ := h₂.lastToken
    exact ⟨_, .isNull hpath ⟨ht, hu, trivial⟩, rfl⟩
  · -- IS NOT NULL
    obtain ⟨_, ps, _, _, ⟨path, hpath, rfl⟩, rfl, rfl, h₁⟩ := h.sub
    obtain ⟨t, _, _, ht, rfl, rfl, h₂⟩ := h₁.token
    obtain ⟨u, _, _, hu, rfl, rfl, h₃⟩ := h₂.token
    obtain ⟨w, hw, rfl, rfl⟩ := h₃.lastToken
    exact ⟨_, .isNotNull hpath ⟨ht, hu, hw, trivial⟩, rfl⟩
  · -- BETWEEN
    obtain ⟨_, ps, _, _, ⟨path, hpath, rfl⟩, rfl, rfl, h₁⟩ := h.sub
    obtain ⟨t, _, _, ht, rfl, rfl, h₂⟩ := h₁.token
    obtain ⟨_, ls, _, _, ⟨lo, hlo, rfl⟩, rfl, rfl, h₃⟩ := h₂.sub
    obtain ⟨u, _, _, hu, rfl, rfl, h₄⟩ := h₃.token
    obtain ⟨_, ⟨hi, hhi, rfl⟩, rfl⟩ := h₄.last
    exact ⟨_, .between hpath ⟨ht, hu, trivial⟩ hlo hhi, rfl⟩
  · -- IN
    obtain ⟨_, ps, _, _, ⟨path, hpath, rfl⟩, rfl, rfl, h₁⟩ := h.sub
    obtain ⟨t, _, _, ht, rfl, rfl, h₂⟩ := h₁.token
    obtain ⟨o, _, _, ho, rfl, rfl, h₃⟩ := h₂.token
    obtain ⟨_, us, _, _, ⟨list, hlist, rfl⟩, rfl, rfl, h₄⟩ := h₃.sub
    obtain ⟨c, hc, rfl, rfl⟩ := h₄.lastToken
    cases list with
    | nil => exact absurd rfl hlist.list_ne_nil
    | cons first others => exact ⟨_, .isIn hpath ⟨ht, ho, hc, trivial⟩ hlist, rfl⟩
  · obtain ⟨f, o, path, ps, _, us, hf, ho, hpath, rfl, rfl, h₁⟩ := h.function
    obtain ⟨c, hc, rfl, rfl⟩ := h₁.lastToken
    refine ⟨_, .attributeExists ⟨hf, ho, hc, trivial⟩ hpath, ?_⟩
    change RuleAction.pathTest f path = _
    simp only [RuleAction.pathTest, hf]
  · obtain ⟨f, o, path, ps, _, us, hf, ho, hpath, rfl, rfl, h₁⟩ := h.function
    obtain ⟨c, hc, rfl, rfl⟩ := h₁.lastToken
    refine ⟨_, .attributeNotExists ⟨hf, ho, hc, trivial⟩ hpath, ?_⟩
    change RuleAction.pathTest f path = _
    simp only [RuleAction.pathTest, hf]
  · obtain ⟨f, o, path, ps, _, us, hf, ho, hpath, rfl, rfl, h₁⟩ := h.function
    obtain ⟨s, _, _, hs, rfl, rfl, h₂⟩ := h₁.token
    obtain ⟨_, _, _, _, ⟨y, type, htype, rfl, rfl⟩, rfl, rfl, h₃⟩ := h₂.sub
    obtain ⟨c, hc, rfl, rfl⟩ := h₃.lastToken
    exact ⟨_, .attributeType ⟨hf, ho, hs, hc, trivial⟩ hpath htype, rfl⟩
  · obtain ⟨f, o, path, ps, _, us, hf, ho, hpath, rfl, rfl, h₁⟩ := h.function
    obtain ⟨s, _, _, hs, rfl, rfl, h₂⟩ := h₁.token
    obtain ⟨_, _, _, _, ⟨y, operand, hy, rfl, rfl⟩, rfl, rfl, h₃⟩ := h₂.sub
    obtain ⟨c, hc, rfl, rfl⟩ := h₃.lastToken
    refine ⟨_, .beginsWith ⟨hf, ho, hs, hc, trivial⟩ hpath hy, ?_⟩
    change RuleAction.stringTest f path operand = _
    simp only [RuleAction.stringTest, hf]
  · obtain ⟨f, o, path, ps, _, us, hf, ho, hpath, rfl, rfl, h₁⟩ := h.function
    obtain ⟨s, _, _, hs, rfl, rfl, h₂⟩ := h₁.token
    obtain ⟨_, _, _, _, ⟨y, operand, hy, rfl, rfl⟩, rfl, rfl, h₃⟩ := h₂.sub
    obtain ⟨c, hc, rfl, rfl⟩ := h₃.lastToken
    refine ⟨_, .contains ⟨hf, ho, hs, hc, trivial⟩ hpath hy, ?_⟩
    change RuleAction.stringTest f path operand = _
    simp only [RuleAction.stringTest, hf]
  · obtain ⟨f, o, path, ps, _, us, hf, ho, hpath, rfl, rfl, h₁⟩ := h.function
    obtain ⟨c, _, _, hc, rfl, rfl, h₂⟩ := h₁.token
    obtain ⟨_, _, _, _, ⟨k, op, hop, rfl, rfl⟩, rfl, rfl, h₃⟩ := h₂.sub
    obtain ⟨_, ⟨v, hv, rfl⟩, rfl⟩ := h₃.last
    exact ⟨_, .size ⟨hf, ho, hc, trivial⟩ hpath hop hv, rfl⟩

end SymbolsSpell

/-- The parts of expressions spell what their actions make. -/
theorem symbolSpells_of_valid {tree : ParseTree}
    (hvalid : tree.Valid SymbolType.kind statementGrammar) :
    SymbolSpells (tree.symbol SymbolType.kind) (actions.value tree) tree.yield := by
  induction hvalid with
  | leaf token => exact ⟨token, rfl, rfl, rfl⟩
  | @node A children hrule hchildren ih =>
      have hall : SymbolsSpell (children.map (Tree.symbol SymbolType.kind))
          (actions.values children) (Tree.yieldAll children) := by
        clear hrule hchildren
        induction children with
        | nil => exact .nil
        | cons child children ihchildren =>
            exact .cons (ih child List.mem_cons_self)
              (ihchildren fun tree htree => ih tree (List.mem_cons_of_mem child htree))
      change SymbolSpells (nt A) (ruleAction A (actions.values children)) (Tree.yieldAll children)
      cases A with
      | string => exact hall.string hrule
      | leeRhs => exact hall.leeRhs hrule
      | leeRhsList => exact hall.leeRhsList hrule
      | mapElementList => exact hall.mapElementList hrule
      | leeLhs => exact hall.leeLhs hrule
      | comparisonOp => exact hall.comparisonOp hrule
      | attributeType => exact hall.attributeType hrule
      | logicalExpressionElement => exact hall.logicalExpressionElement hrule
      | _ => trivial

/-! ### Expressions -/

/-- The operator that a tree of `logical_expression` has at its top, as the
level of the expressions that may have it there. -/
def levelOf : ParseTree → Prec
  | .node _ [_, .leaf t, _] =>
      if t.kind = .kind .kOr then .or else if t.kind = .kind .kAnd then .and else .not
  | _ => .not

theorem levelOf_cases {tree : ParseTree} (hvalid : tree.Valid SymbolType.kind statementGrammar)
    (hsymbol : tree.symbol SymbolType.kind = nt .logicalExpression) (h : levelOf tree ≠ .not) :
    ∃ l t r, tree = .node .logicalExpression [l, .leaf t, r] ∧
      l.symbol SymbolType.kind = nt .logicalExpression ∧
      r.symbol SymbolType.kind = nt .logicalExpression ∧
      (levelOf tree = .or ∧ t.kind = .kind .kOr ∨ levelOf tree = .and ∧ t.kind = .kind .kAnd) := by
  cases hvalid with
  | leaf token => cases hsymbol
  | @node A children hrule _ =>
      obtain rfl : A = .logicalExpression := LR.Sym.n.inj hsymbol
      unfold levelOf at h
      split at h
      · next l t r heq =>
          obtain ⟨-, rfl⟩ := Tree.node.inj heq
          have hthree : [l.symbol SymbolType.kind, .t t.kind, r.symbol SymbolType.kind] ∈
              productions .logicalExpression := hrule
          -- the rules of three symbols with a token in the middle
          have hsides : l.symbol SymbolType.kind = nt .logicalExpression ∧
              r.symbol SymbolType.kind = nt .logicalExpression := by
            simp [productions, tok, chr, nt] at hthree
            rcases hthree with ⟨hl, -, hr⟩ | ⟨hl, -, hr⟩ <;> exact ⟨hl, hr⟩
          refine ⟨l, t, r, rfl, hsides.1, hsides.2, ?_⟩
          · rw [levelOf]
            split at h
            · next hor => exact .inl ⟨if_pos hor, hor⟩
            · next hor =>
                split at h
                · next hand => exact .inr ⟨by rw [if_neg hor, if_pos hand], hand⟩
                · exact absurd rfl h
      · exact absurd rfl h

/-- Over a NOT or an AND there is no operator at the top of an expression, and
over an OR no OR. -/
theorem level_over {tree : ParseTree} (hvalid : tree.Valid SymbolType.kind statementGrammar)
    (hsymbol : tree.symbol SymbolType.kind = nt .logicalExpression) {below : List Symbol}
    {next : Option Terminal}
    (hobeys : LR.Obeys statementGrammar SymbolType.kind below next tree) {rhs : List Symbol}
    (hrhs : rhs ∈ productions .logicalExpression)
    (hbelow : rhs.reverse <+: nt .logicalExpression :: below) :
    (levelOf tree = .or → statementGrammar.prefersReduce rhs (.kind .kOr) = false) ∧
      (levelOf tree = .and → statementGrammar.prefersReduce rhs (.kind .kAnd) = false) := by
  have hadmits : levelOf tree ≠ .not → ∃ t : SymbolType,
      (levelOf tree = .or ∧ t.kind = .kind .kOr ∨ levelOf tree = .and ∧ t.kind = .kind .kAnd) ∧
        statementGrammar.Admits (nt .logicalExpression :: below) t.kind := by
    intro h
    obtain ⟨l, t, r, rfl, hl, -, hlevel⟩ := levelOf_cases hvalid hsymbol h
    refine ⟨t, hlevel, ?_⟩
    rw [LR.Obeys, LR.ObeysAll, LR.ObeysAll, hl] at hobeys
    exact hobeys.1.2.1
  refine ⟨fun hor => ?_, fun hand => ?_⟩
  · obtain ⟨t, hlevel, hadmits⟩ := hadmits (by rw [hor]; decide)
    rcases hlevel with ⟨-, ht⟩ | ⟨hlevel, -⟩
    · exact ht ▸ hadmits .logicalExpression _ hrhs hbelow
    · rw [hor] at hlevel
      cases hlevel
  · obtain ⟨t, hlevel, hadmits⟩ := hadmits (by rw [hand]; decide)
    rcases hlevel with ⟨hlevel, -⟩ | ⟨-, ht⟩
    · rw [hand] at hlevel
      cases hlevel
    · exact ht ▸ hadmits .logicalExpression _ hrhs hbelow

/-- Before an AND there is no OR at the top. -/
theorem level_before {tree : ParseTree} (hvalid : tree.Valid SymbolType.kind statementGrammar)
    (hsymbol : tree.symbol SymbolType.kind = nt .logicalExpression) {below : List Symbol}
    (hobeys : LR.Obeys statementGrammar SymbolType.kind below (some (.kind .kAnd)) tree) :
    levelOf tree ≠ .or := by
  intro hor
  obtain ⟨l, t, r, rfl, hl, hr, hlevel⟩ := levelOf_cases hvalid hsymbol (by rw [hor]; decide)
  rcases hlevel with ⟨-, ht⟩ | ⟨hlevel, -⟩
  · rw [LR.Obeys] at hobeys
    have hyields : statementGrammar.Yields
        [l.symbol SymbolType.kind, .t t.kind, r.symbol SymbolType.kind] (.kind .kAnd) :=
      hobeys.2 _ rfl
    rw [hl, ht, hr] at hyields
    exact absurd (hyields 1 2 rfl rfl) (by decide)
  · rw [hor] at hlevel
    cases hlevel

/-- Where neither AND nor OR may be shifted there is no operator at the top. -/
theorem level_not {tree : ParseTree} (hvalid : tree.Valid SymbolType.kind statementGrammar)
    (hsymbol : tree.symbol SymbolType.kind = nt .logicalExpression) {below : List Symbol}
    {next : Option Terminal}
    (hobeys : LR.Obeys statementGrammar SymbolType.kind below next tree) {rhs : List Symbol}
    (hrhs : rhs ∈ productions .logicalExpression)
    (hbelow : rhs.reverse <+: nt .logicalExpression :: below)
    (hor : statementGrammar.prefersReduce rhs (.kind .kOr) = true)
    (hand : statementGrammar.prefersReduce rhs (.kind .kAnd) = true) : levelOf tree = .not := by
  have hover := level_over hvalid hsymbol hobeys hrhs hbelow
  rw [hor, hand] at hover
  cases hlevel : levelOf tree with
  | not => rfl
  | and => cases hover.2 hlevel
  | or => cases hover.1 hlevel

theorem leaf_of_symbol {tree : ParseTree} {t : Terminal} (h : tree.symbol SymbolType.kind = .t t) :
    ∃ token : SymbolType, tree = .leaf token ∧ token.kind = t := by
  cases tree with
  | leaf token => exact ⟨token, rfl, LR.Sym.t.inj h⟩
  | node A children => cases h

theorem node_of_symbol {tree : ParseTree} {A : Nonterminal}
    (h : tree.symbol SymbolType.kind = nt A) : ∃ children, tree = .node A children := by
  cases tree with
  | leaf token => cases h
  | node B children =>
      obtain rfl : B = A := LR.Sym.n.inj h
      exact ⟨children, rfl⟩

theorem children_two {children : List ParseTree} {X Y : Symbol}
    (h : children.map (Tree.symbol SymbolType.kind) = [X, Y]) : ∃ x y, children = [x, y] ∧
      x.symbol SymbolType.kind = X ∧ y.symbol SymbolType.kind = Y := by
  obtain ⟨x, others, rfl, hx, hothers⟩ := List.map_eq_cons_iff.mp h
  obtain ⟨y, rfl, hy⟩ := List.map_eq_singleton_iff.mp hothers
  exact ⟨x, y, rfl, hx, hy⟩

theorem children_three {children : List ParseTree} {X Y Z : Symbol}
    (h : children.map (Tree.symbol SymbolType.kind) = [X, Y, Z]) : ∃ x y z, children = [x, y, z] ∧
      x.symbol SymbolType.kind = X ∧ y.symbol SymbolType.kind = Y ∧
        z.symbol SymbolType.kind = Z := by
  obtain ⟨x, others, rfl, hx, hothers⟩ := List.map_eq_cons_iff.mp h
  obtain ⟨y, z, rfl, hy, hz⟩ := children_two hothers
  exact ⟨x, y, z, rfl, hx, hy, hz⟩

/-- The tree reads as an expression of the level. -/
def ReadAt (p : Prec) (tree : ParseTree) : Prop :=
  ∃ e : SourceExpr p, e.Spelled tree.yield ∧ actions.value tree = .condition e.build

section ReadAt

variable {p : Prec} {x y z : ParseTree} {t : SymbolType}

/-- An expression of any level is one of the loosest. -/
theorem ReadAt.toOr (h : ReadAt p x) : ReadAt .or x := by
  obtain ⟨e, he, hvalue⟩ := h
  cases p with
  | not => exact ⟨.ofAnd (.ofNot e), .ofAnd (.ofNot he), hvalue⟩
  | and => exact ⟨.ofAnd e, .ofAnd he, hvalue⟩
  | or => exact ⟨e, he, hvalue⟩

theorem ReadAt.toAnd (h : ReadAt p x) (hp : p ≠ .or) : ReadAt .and x := by
  obtain ⟨e, he, hvalue⟩ := h
  cases p with
  | not => exact ⟨.ofNot e, .ofNot he, hvalue⟩
  | and => exact ⟨e, he, hvalue⟩
  | or => exact absurd rfl hp

theorem readAt_element (hvalid : x.Valid SymbolType.kind statementGrammar)
    (hx : x.symbol SymbolType.kind = nt .logicalExpressionElement) :
    ReadAt .not (.node .logicalExpression [x]) := by
  have hspells := symbolSpells_of_valid hvalid
  rw [hx] at hspells
  obtain ⟨e, he, hvalue⟩ := hspells
  refine ⟨.element e, ?_, ?_⟩
  · rw [Tree.yield, Tree.yieldAll, Tree.yieldAll, List.append_nil]
    exact .element he
  · change RuleAction.conditionAction [actions.value x] = _
    rw [hvalue]
    rfl

theorem readAt_not (ht : t.kind = .kind .kNot)
    (hy : y.symbol SymbolType.kind = nt .logicalExpression) (h : ReadAt .not y) :
    ReadAt .not (.node .logicalExpression [.leaf t, y]) := by
  obtain ⟨children, rfl⟩ := node_of_symbol hy
  obtain ⟨e, he, hvalue⟩ := h
  refine ⟨.not e, ?_, ?_⟩
  · rw [Tree.yield, Tree.yieldAll, Tree.yieldAll, Tree.yieldAll, List.append_nil]
    exact .not ht he
  · change RuleAction.conditionAction
      [.token t, actions.value (.node .logicalExpression children)] = _
    rw [hvalue]
    rfl

theorem readAt_paren {c : SymbolType} (ht : t.kind = .character '(')
    (hc : c.kind = .character ')') (hy : y.symbol SymbolType.kind = nt .logicalExpression)
    (h : ReadAt .or y) : ReadAt .not (.node .logicalExpression [.leaf t, y, .leaf c]) := by
  obtain ⟨children, rfl⟩ := node_of_symbol hy
  obtain ⟨e, he, hvalue⟩ := h
  refine ⟨.paren e, ?_, ?_⟩
  · rw [Tree.yield, Tree.yieldAll, Tree.yieldAll, Tree.yieldAll, Tree.yieldAll, List.append_nil]
    exact .paren ht hc he
  · change RuleAction.conditionAction
      [.token t, actions.value (.node .logicalExpression children), .token c] = _
    rw [hvalue]
    rfl

theorem readAt_and (ht : t.kind = .kind .kAnd) (hx : ReadAt .and x) (hz : ReadAt .not z) :
    ReadAt .and (.node .logicalExpression [x, .leaf t, z]) := by
  obtain ⟨l, hl, hlvalue⟩ := hx
  obtain ⟨r, hr, hrvalue⟩ := hz
  refine ⟨.and l r, ?_, ?_⟩
  · rw [Tree.yield, Tree.yieldAll, Tree.yieldAll, Tree.yieldAll, Tree.yieldAll, List.append_nil]
    exact .and ht hl hr
  · change RuleAction.conditionAction [actions.value x, .token t, actions.value z] = _
    rw [hlvalue, hrvalue]
    change Semantic.condition (if t.kind = .kind .kAnd then _ else _) = _
    rw [if_pos ht]
    rfl

theorem readAt_or (ht : t.kind = .kind .kOr) (hx : ReadAt .or x) (hz : ReadAt .and z) :
    ReadAt .or (.node .logicalExpression [x, .leaf t, z]) := by
  obtain ⟨l, hl, hlvalue⟩ := hx
  obtain ⟨r, hr, hrvalue⟩ := hz
  refine ⟨.or l r, ?_, ?_⟩
  · rw [Tree.yield, Tree.yieldAll, Tree.yieldAll, Tree.yieldAll, Tree.yieldAll, List.append_nil]
    exact .or ht hl hr
  · change RuleAction.conditionAction [actions.value x, .token t, actions.value z] = _
    rw [hlvalue, hrvalue]
    change Semantic.condition (if t.kind = .kind .kAnd then _ else _) = _
    rw [if_neg (by rw [ht]; decide)]
    rfl

end ReadAt

/-- A tree of `logical_expression` that obeys the precedences is an expression
of its level, spelled in its tokens. -/
theorem expression_spelled {tree : ParseTree}
    (hvalid : tree.Valid SymbolType.kind statementGrammar) :
    ∀ (below : List Symbol) (next : Option Terminal),
      tree.symbol SymbolType.kind = nt .logicalExpression →
      LR.Obeys statementGrammar SymbolType.kind below next tree → ReadAt (levelOf tree) tree := by
  induction hvalid with
  | leaf token =>
      intro _ _ hsymbol
      cases hsymbol
  | @node A children hrule hchildren ih =>
      intro below next hsymbol hobeys
      obtain rfl : A = .logicalExpression := LR.Sym.n.inj hsymbol
      rw [LR.Obeys] at hobeys
      have hall := hobeys.1
      simp only [statementGrammar, productions, List.mem_cons, List.not_mem_nil, or_false] at hrule
      rcases hrule with hrule | hrule | hrule | hrule | hrule
      · -- an element
        obtain ⟨x, rfl, hx⟩ := List.map_eq_singleton_iff.mp hrule
        exact readAt_element (hchildren x List.mem_cons_self) hx
      · -- NOT
        obtain ⟨x, y, rfl, hx, hy⟩ := children_two hrule
        obtain ⟨t, rfl, ht⟩ := leaf_of_symbol hx
        rw [LR.ObeysAll, LR.ObeysAll, hx] at hall
        have hlevel : levelOf y = .not :=
          level_not (hchildren y (by simp)) hy hall.2.1
            (show [tok .kNot, nt .logicalExpression] ∈ productions .logicalExpression by decide)
            ⟨below, rfl⟩ rfl rfl
        have hinner := ih y (by simp) _ _ hy hall.2.1
        rw [hlevel] at hinner
        obtain ⟨grandchildren, rfl⟩ := node_of_symbol hy
        exact readAt_not ht hy hinner
      · -- parentheses
        obtain ⟨x, y, z, rfl, hx, hy, hz⟩ := children_three hrule
        obtain ⟨o, rfl, ho⟩ := leaf_of_symbol hx
        obtain ⟨c, rfl, hc⟩ := leaf_of_symbol hz
        rw [LR.ObeysAll, LR.ObeysAll] at hall
        have hinner := ih y (by simp) _ _ hy hall.2.1
        obtain ⟨grandchildren, rfl⟩ := node_of_symbol hy
        exact readAt_paren ho hc hy hinner.toOr
      · -- AND
        obtain ⟨x, y, z, rfl, hx, hy, hz⟩ := children_three hrule
        obtain ⟨t, rfl, ht⟩ := leaf_of_symbol hy
        rw [LR.ObeysAll, LR.ObeysAll, LR.ObeysAll, hx, hy] at hall
        have hbefore : LR.ahead SymbolType.kind [Tree.leaf t, z] next = some (.kind .kAnd) := by
          rw [← ht]
          rfl
        rw [hbefore] at hall
        have hleft := level_before (hchildren x (by simp)) hx hall.1
        have hright : levelOf z = .not :=
          level_not (hchildren z (by simp)) hz hall.2.2.1
            (show [nt .logicalExpression, tok .kAnd, nt .logicalExpression] ∈
              productions .logicalExpression by decide) ⟨below, rfl⟩ rfl rfl
        have hinner := ih z (by simp) _ _ hz hall.2.2.1
        rw [hright] at hinner
        have hlevel : levelOf (.node .logicalExpression [x, .leaf t, z]) = .and := by
          rw [levelOf, if_neg (by rw [ht]; decide), if_pos ht]
        rw [hlevel]
        exact readAt_and ht ((ih x (by simp) _ _ hx hall.1).toAnd hleft) hinner
      · -- OR
        obtain ⟨x, y, z, rfl, hx, hy, hz⟩ := children_three hrule
        obtain ⟨t, rfl, ht⟩ := leaf_of_symbol hy
        rw [LR.ObeysAll, LR.ObeysAll, LR.ObeysAll, hx, hy] at hall
        have hover := level_over (hchildren z (by simp)) hz hall.2.2.1
          (show [nt .logicalExpression, tok .kOr, nt .logicalExpression] ∈
            productions .logicalExpression by decide) ⟨below, rfl⟩
        have hright : levelOf z ≠ .or := fun hlevel => by cases hover.1 hlevel
        have hlevel : levelOf (.node .logicalExpression [x, .leaf t, z]) = .or := by
          rw [levelOf, if_pos ht]
        rw [hlevel]
        exact readAt_or ht (ih x (by simp) _ _ hx hall.1).toOr
          ((ih z (by simp) _ _ hz hall.2.2.1).toAnd hright)

end DdbShell
