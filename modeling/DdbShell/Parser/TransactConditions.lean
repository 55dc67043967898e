import DdbShell.Parser.StatementConditions

/-!
The conditions inside a transaction. Its items are made one by one, in order,
from the statements between BEGIN and its end, so the conditions of an item
stand behind a WHERE of the statement that it was made from and of no other.
-/

namespace DdbShell

open LR (Tree)

mutual

/-- The statements that a tree is made of: those inside a transaction, or the
one that reads or writes. -/
def innerStatements : ParseTree → List ParseTree
  | .leaf _ => []
  | .node A children =>
      if A = .getCommand ∨ A = .writeCommand then [.node A children]
      else innerStatementsAll children

def innerStatementsAll : List ParseTree → List ParseTree
  | [] => []
  | tree :: trees => innerStatements tree ++ innerStatementsAll trees

end

/-- The item is made from the statement, and its conditions are written there. -/
structure MadeFrom (part : ParseTree) (item : TransactItem) : Prop where
  made : ∃ node, actions.value part = .command node ∧ item = node.transactItem
  written : ∀ w ∈ item.conditions, WhereWritten part.yield w

/-! ### What is no transaction -/

/-- The symbols that read or write, or are passed on from no transaction. -/
def reading : List Nonterminal := [
  .controlCommand, .ddlCommand, .dmlCommand, .getCommand, .writeCommand, .showCommand,
  .selectCommand, .updateCommand, .upsertCommand, .deleteCommand, .existsCommand]

theorem reading_closed : ([Nonterminal.controlCommand, .ddlCommand, .dmlCommand, .getCommand,
    .writeCommand, .showCommand].all fun A => (productions A).all fun rhs =>
      match rhs with
      | [.n B] => B ∈ reading ∨ B ∈ unconditional
      | _ => false) = true := by
  decide +kernel

theorem existsMode_isTransaction (mode : ExistsMode) (node : CommandNode) :
    (Semantic.command (RuleAction.existsMode mode node)).isTransaction =
      (Semantic.command node).isTransaction := by
  fun_cases RuleAction.existsMode mode node <;> rfl

/-- A value that is no transaction, for the symbols that make none. -/
def Untransacted : Symbol → Semantic → Prop
  | .t _, _ => True
  | .n A, v => A ∈ reading ∨ A ∈ unconditional → v.isTransaction = false

theorem untransacted_passing {A : Nonterminal} (hA : A ∈ [Nonterminal.controlCommand, .ddlCommand,
      .dmlCommand, .getCommand, .writeCommand, .showCommand]) {rhs : List Symbol}
    {vs : List Semantic} (hrhs : rhs ∈ productions A) (h : List.Forall₂ Untransacted rhs vs) :
    (RuleAction.passAction vs).isTransaction = false := by
  have hone := List.all_eq_true.mp (List.all_eq_true.mp reading_closed A hA) rhs hrhs
  split at hone
  · next B =>
      cases h with
      | cons hv hothers =>
          cases hothers
          exact hv (of_decide_eq_true hone)
  · cases hone

theorem untransacted_exists {rhs : List Symbol} {vs : List Semantic}
    (hrhs : rhs ∈ productions .existsCommand) (h : List.Forall₂ Untransacted rhs vs) :
    (RuleAction.existsAction vs).isTransaction = false := by
  simp only [productions, List.mem_cons, List.not_mem_nil, or_false] at hrhs
  fun_cases RuleAction.existsAction vs
  · rcases hrhs with rfl | rfl
    · rcases h with _ | ⟨-, _ | ⟨hselect, -⟩⟩
      rw [existsMode_isTransaction]
      exact hselect (by decide)
    · cases List.Forall₂.length_eq h
  · rcases hrhs with rfl | rfl
    · cases List.Forall₂.length_eq h
    · rcases h with _ | ⟨-, _ | ⟨-, _ | ⟨hselect, -⟩⟩⟩
      rw [existsMode_isTransaction]
      exact hselect (by decide)
  · rfl

theorem untransacted {tree : ParseTree} (hvalid : tree.Valid SymbolType.kind statementGrammar) :
    Untransacted (tree.symbol SymbolType.kind) (actions.value tree) := by
  induction hvalid with
  | leaf token => trivial
  | @node A children hrule hchildren ih =>
      have h := LR.forall₂_values (a := actions) (R := Untransacted) ih
      rintro (hA | hA)
      · change (ruleAction A (actions.values children)).isTransaction = false
        generalize actions.values children = vs at h ⊢
        simp only [reading, List.mem_cons, List.not_mem_nil, or_false] at hA
        rcases hA with rfl | rfl | rfl | rfl | rfl | rfl | rfl | rfl | rfl | rfl | rfl
        · exact untransacted_passing (A := .controlCommand) (by decide) hrule h
        · exact untransacted_passing (A := .ddlCommand) (by decide) hrule h
        · exact untransacted_passing (A := .dmlCommand) (by decide) hrule h
        · exact untransacted_passing (A := .getCommand) (by decide) hrule h
        · exact untransacted_passing (A := .writeCommand) (by decide) hrule h
        · exact untransacted_passing (A := .showCommand) (by decide) hrule h
        · change (RuleAction.selectAction vs).isTransaction = false
          fun_cases RuleAction.selectAction vs <;> rfl
        · change (RuleAction.updateAction false vs).isTransaction = false
          fun_cases RuleAction.updateAction false vs <;> rfl
        · change (RuleAction.updateAction true vs).isTransaction = false
          fun_cases RuleAction.updateAction true vs <;> rfl
        · change (RuleAction.deleteAction vs).isTransaction = false
          fun_cases RuleAction.deleteAction vs <;> rfl
        · exact untransacted_exists hrule h
      · exact (bare_of_unconditional hA _).2

/-! ### The items of a transaction -/

theorem innerStatements_leaf {tree : ParseTree} {t : Terminal}
    (h : tree.symbol SymbolType.kind = .t t) : innerStatements tree = [] := by
  obtain ⟨token, rfl, -⟩ := leaf_of_symbol h
  rfl

theorem innerStatements_part {tree : ParseTree} {A : Nonterminal}
    (hA : A = .getCommand ∨ A = .writeCommand) (h : tree.symbol SymbolType.kind = nt A) :
    innerStatements tree = [tree] := by
  obtain ⟨children, rfl⟩ := node_of_symbol h
  rw [innerStatements, if_pos hA]

/-- An inner statement and the item that is made from it. -/
theorem madeFrom {part : ParseTree} (hvalid : part.Valid SymbolType.kind statementGrammar)
    {A : Nonterminal} (hsymbol : part.symbol SymbolType.kind = nt A) (hA : A ∈ conditional)
    {below : List Symbol} {next : Option Terminal}
    (hobeys : LR.Obeys statementGrammar SymbolType.kind below next part) {node : CommandNode}
    (hvalue : actions.value part = .command node) : MadeFrom part node.transactItem := by
  have hfine := conditions_written hvalid below next hobeys
  rw [hsymbol, hvalue] at hfine
  exact ⟨⟨node, hvalue, rfl⟩, fun w hw => hfine.at (.inl hA) w (transactItem_conditions hw)⟩

/-- Each rule of a list adds the item of its last statement. -/
theorem transactItemsAction_inv {access : TransactAccess} {vs : List Semantic} {cmd : TransactCmd}
    (h : RuleAction.transactItemsAction access vs = .transact cmd) :
    (∃ node v, vs = [.command node, v] ∧ cmd.items = [node.transactItem]) ∨
      ∃ before node v, vs = [.transact before, .command node, v] ∧
        cmd.items = before.items ++ [node.transactItem] := by
  revert h
  fun_cases RuleAction.transactItemsAction access vs
  · intro h
    cases h
    exact .inl ⟨_, _, rfl, rfl⟩
  · intro h
    cases h
    exact .inr ⟨_, _, _, rfl, rfl⟩
  · intro h
    cases h

/-- The items of a list of inner statements are made from them in their order. -/
theorem items_madeFrom {tree : ParseTree}
    (hvalid : tree.Valid SymbolType.kind statementGrammar) {A B : Nonterminal}
    {access : TransactAccess} (hA : A ≠ .getCommand ∧ A ≠ .writeCommand)
    (hB : B = .getCommand ∨ B = .writeCommand)
    (hrules : productions A = [[nt B, tok .semicolon], [nt A, nt B, tok .semicolon]])
    (haction : ruleAction A = RuleAction.transactItemsAction access) :
    ∀ (below : List Symbol) (next : Option Terminal) (cmd : TransactCmd),
      tree.symbol SymbolType.kind = nt A →
      LR.Obeys statementGrammar SymbolType.kind below next tree →
      actions.value tree = .transact cmd →
        List.Forall₂ MadeFrom (innerStatements tree) cmd.items := by
  have hpart : B ∈ conditional := by rcases hB with rfl | rfl <;> decide
  induction hvalid with
  | leaf token => exact fun _ _ _ hsymbol => by cases hsymbol
  | @node C children hrule hchildren ih =>
      intro below next cmd hsymbol hobeys hvalue
      obtain rfl : C = A := LR.Sym.n.inj hsymbol
      have hrhs : children.map (Tree.symbol SymbolType.kind) ∈ productions C := hrule
      rw [hrules] at hrhs
      change ruleAction C (actions.values children) = .transact cmd at hvalue
      rw [haction] at hvalue
      rw [innerStatements, if_neg (by simp [hA])]
      rw [LR.Obeys] at hobeys
      simp only [List.mem_cons, List.not_mem_nil, or_false] at hrhs
      rcases hrhs with hrhs | hrhs
      · obtain ⟨x, y, rfl, hx, hy⟩ := children_two hrhs
        obtain ⟨_, _, hobeysx⟩ := LR.obeys_of_mem hobeys.1 (show x ∈ [x, y] by simp)
        rcases transactItemsAction_inv hvalue with ⟨node, v, hvs, hitems⟩ | ⟨_, _, _, hvs, -⟩
        · obtain ⟨hvaluex, -⟩ := List.cons.inj hvs
          have hmade := madeFrom (hchildren x (by simp)) hx hpart hobeysx hvaluex
          rw [hitems, innerStatementsAll, innerStatementsAll, innerStatementsAll,
            innerStatements_part hB hx, innerStatements_leaf hy]
          exact .cons hmade .nil
        · cases congrArg List.length hvs
      · obtain ⟨x, y, z, rfl, hx, hy, hz⟩ := children_three hrhs
        obtain ⟨belowx, nextx, hobeysx⟩ := LR.obeys_of_mem hobeys.1 (show x ∈ [x, y, z] by simp)
        obtain ⟨_, _, hobeysy⟩ := LR.obeys_of_mem hobeys.1 (show y ∈ [x, y, z] by simp)
        rcases transactItemsAction_inv hvalue with ⟨_, _, hvs, -⟩ | ⟨before, node, v, hvs, hitems⟩
        · cases congrArg List.length hvs
        · obtain ⟨hvaluex, hvs⟩ := List.cons.inj hvs
          obtain ⟨hvaluey, -⟩ := List.cons.inj hvs
          have hfront := ih x (by simp) belowx nextx before hx hobeysx hvaluex
          have hmade := madeFrom (hchildren y (by simp)) hy hpart hobeysy hvaluey
          rw [hitems, innerStatementsAll, innerStatementsAll, innerStatementsAll,
            innerStatementsAll, innerStatements_part hB hy, innerStatements_leaf hz,
            List.append_nil, List.append_nil]
          exact List.rel_append hfront (.cons hmade .nil)

/-- The items of a transaction are made from the statements inside it. -/
def ItemsMade (tree : ParseTree) (v : Semantic) : Prop :=
  ∀ cmd, v = .command (.explainable (.transact cmd)) →
    List.Forall₂ MadeFrom (innerStatements tree) cmd.items

theorem transactAction_inv {vs : List Semantic} {cmd : TransactCmd}
    (h : RuleAction.transactAction vs = .command (.explainable (.transact cmd))) :
    (∃ u v list w, vs = [u, v, .transact list, w] ∧ cmd.items = list.items) ∨
      vs.length = 3 ∧ cmd.items = [] := by
  revert h
  fun_cases RuleAction.transactAction vs
  · intro h
    cases h
    exact .inl ⟨_, _, _, _, rfl, rfl⟩
  · intro h
    cases h
    exact .inr ⟨rfl, rfl⟩
  · intro h
    cases h

/-- A list between BEGIN and the end of a transaction. -/
theorem list_itemsMade {tree : ParseTree} (hvalid : tree.Valid SymbolType.kind statementGrammar)
    (hsymbol : tree.symbol SymbolType.kind = nt .transactGetCommand ∨
      tree.symbol SymbolType.kind = nt .transactWriteCommand) {below : List Symbol}
    {next : Option Terminal} (hobeys : LR.Obeys statementGrammar SymbolType.kind below next tree)
    {list : TransactCmd} (hvalue : actions.value tree = .transact list) :
    List.Forall₂ MadeFrom (innerStatements tree) list.items := by
  rcases hsymbol with hsymbol | hsymbol
  · exact items_madeFrom (B := .getCommand) hvalid (by decide) (.inl rfl) rfl rfl _ _ _ hsymbol
      hobeys hvalue
  · exact items_madeFrom (B := .writeCommand) hvalid (by decide) (.inr rfl) rfl rfl _ _ _ hsymbol
      hobeys hvalue

theorem transaction_itemsMade {children : List ParseTree} {below : List Symbol}
    {next : Option Terminal}
    (hvalid : Tree.Valid SymbolType.kind statementGrammar (.node .transactCommand children))
    (hobeys : LR.Obeys statementGrammar SymbolType.kind below next
      (.node .transactCommand children)) :
    ItemsMade (.node .transactCommand children)
      (actions.value (.node .transactCommand children)) := by
  cases hvalid with
  | node hrule hchildren =>
      intro cmd hvalue
      change RuleAction.transactAction (actions.values children) = _ at hvalue
      rw [innerStatements, if_neg (by simp)]
      rw [LR.Obeys] at hobeys
      have hshape : (∃ X, (X = nt .transactGetCommand ∨ X = nt .transactWriteCommand) ∧
            ∃ e, children.map (Tree.symbol SymbolType.kind) =
              [tok .kBegin, tok .semicolon, X, tok e]) ∨
          children.map (Tree.symbol SymbolType.kind) =
            [tok .kBegin, tok .semicolon, tok .kRollback] := by
        change children.map _ ∈ productions .transactCommand at hrule
        simp only [productions, List.mem_cons, List.not_mem_nil, or_false] at hrule
        rcases hrule with h | h | h | h | h
        · exact .inl ⟨_, .inl rfl, _, h⟩
        · exact .inl ⟨_, .inr rfl, _, h⟩
        · exact .inl ⟨_, .inl rfl, _, h⟩
        · exact .inl ⟨_, .inr rfl, _, h⟩
        · exact .inr h
      rcases hshape with ⟨X, hX, e, hrhs⟩ | hrhs
      · obtain ⟨b, others, rfl, hb, hothers⟩ := List.map_eq_cons_iff.mp hrhs
        obtain ⟨s, l, t, rfl, hs, hl, ht⟩ := children_three hothers
        obtain ⟨_, _, hobeysl⟩ := LR.obeys_of_mem hobeys.1 (show l ∈ [b, s, l, t] by simp)
        rcases transactAction_inv hvalue with ⟨u, v, list, w, hvs, hitems⟩ | ⟨hlength, -⟩
        · have hvaluel : actions.value l = .transact list :=
            Option.some.inj (congrArg (·[2]?) hvs)
          rw [hitems, innerStatementsAll, innerStatementsAll, innerStatementsAll,
            innerStatementsAll, innerStatementsAll, innerStatements_leaf hb,
            innerStatements_leaf hs, innerStatements_leaf ht, List.nil_append, List.nil_append,
            List.nil_append, List.append_nil]
          refine list_itemsMade (hchildren l (by simp)) ?_ hobeysl hvaluel
          rwa [hl]
        · cases hlength
      · obtain ⟨b, s, r, rfl, hb, hs, hr⟩ := children_three hrhs
        rcases transactAction_inv hvalue with ⟨_, _, _, _, hvs, -⟩ | ⟨-, hitems⟩
        · cases congrArg List.length hvs
        · rw [hitems, innerStatementsAll, innerStatementsAll, innerStatementsAll,
            innerStatementsAll, innerStatements_leaf hb, innerStatements_leaf hs,
            innerStatements_leaf hr]
          exact .nil

theorem command_closed : ([Nonterminal.command, .explainable].all fun A =>
    (productions A).all fun rhs =>
      match rhs with
      | [.n B] => B ∈ reading ∨ B ∈ unconditional ∨ B = .transactCommand
      | _ => false) = true := by
  decide +kernel

/-- The items of any command are made from the statements inside it. -/
theorem command_itemsMade {tree : ParseTree}
    (hvalid : tree.Valid SymbolType.kind statementGrammar) {A : Nonterminal}
    (hA : A ∈ [Nonterminal.command, .explainable]) (hsymbol : tree.symbol SymbolType.kind = nt A)
    {below : List Symbol} {next : Option Terminal}
    (hobeys : LR.Obeys statementGrammar SymbolType.kind below next tree) :
    ItemsMade tree (actions.value tree) := by
  have haction : ruleAction A = RuleAction.passAction := by
    simp only [List.mem_cons, List.not_mem_nil, or_false] at hA
    rcases hA with rfl | rfl <;> rfl
  have hother : ¬(A = .getCommand ∨ A = .writeCommand) := by
    simp only [List.mem_cons, List.not_mem_nil, or_false] at hA
    rcases hA with rfl | rfl <;> decide
  cases hvalid with
  | leaf token => cases hsymbol
  | @node A' children hrule hchildren =>
      obtain rfl : A' = A := LR.Sym.n.inj hsymbol
      have hone := List.all_eq_true.mp (List.all_eq_true.mp command_closed A' hA) _ hrule
      split at hone
      · next B hrhs =>
          obtain ⟨x, rfl, hx⟩ := List.map_eq_singleton_iff.mp hrhs
          have hvalue : actions.value (.node A' [x]) = actions.value x := by
            change ruleAction A' [actions.value x] = _
            rw [haction]
            rfl
          have hinner : innerStatements (.node A' [x]) = innerStatements x := by
            rw [innerStatements, if_neg hother, innerStatementsAll, innerStatementsAll,
              List.append_nil]
          intro cmd hcmd
          rw [hinner]
          rw [hvalue] at hcmd
          have hvalidx := hchildren x (List.mem_singleton_self x)
          rcases of_decide_eq_true hone with hB | hB | rfl
          · have hplain := untransacted hvalidx
            rw [hx, hcmd] at hplain
            cases hplain (.inl hB)
          · have hplain := untransacted hvalidx
            rw [hx, hcmd] at hplain
            cases hplain (.inr hB)
          · obtain ⟨children, rfl⟩ := node_of_symbol hx
            rw [LR.Obeys] at hobeys
            obtain ⟨_, _, hobeysx⟩ := LR.obeys_of_mem hobeys.1 (List.mem_singleton_self _)
            exact transaction_itemsMade hvalidx hobeysx cmd hcmd
      · cases hone

/-! ### A statement -/

theorem inputAction_inv {vs : List Semantic} {s : ParsedStatement}
    (h : RuleAction.inputAction vs = .statement (some s)) : Semantic.command s.command ∈ vs := by
  revert h
  fun_cases RuleAction.inputAction vs <;> intro h <;> cases h <;> simp

/-- Only the command of a statement has a command for its value. -/
theorem input_command {children : List ParseTree}
    (hrule : children.map (Tree.symbol SymbolType.kind) ∈ productions .input)
    {command : CommandNode} (hmem : Semantic.command command ∈ actions.values children) :
    ∃ x ∈ children, actions.value x = .command command ∧
      innerStatementsAll children = innerStatements x ∧
      ∃ A ∈ [Nonterminal.command, .explainable], x.symbol SymbolType.kind = nt A := by
  have htoken : ∀ {tree : ParseTree} {t : Terminal}, tree.symbol SymbolType.kind = .t t →
      actions.value tree ≠ .command command := by
    intro tree t h
    obtain ⟨token, rfl, -⟩ := leaf_of_symbol h
    exact Semantic.noConfusion
  have hinner : ∀ tree trees, innerStatementsAll (tree :: trees) =
      innerStatements tree ++ innerStatementsAll trees := fun _ _ => rfl
  have hvalues : ∀ tree trees, actions.values (tree :: trees) =
      actions.value tree :: actions.values trees := fun _ _ => rfl
  simp only [productions, List.mem_cons, List.not_mem_nil, or_false] at hrule
  rcases hrule with h | h | h | h | h | h
  · obtain rfl := List.map_eq_nil_iff.mp h
    cases hmem
  · obtain ⟨k, rfl, hk⟩ := List.map_eq_singleton_iff.mp h
    exact absurd (List.mem_singleton.mp hmem).symm (htoken hk)
  · obtain ⟨x, k, rfl, hx, hk⟩ := children_two h
    rw [hvalues, List.mem_cons] at hmem
    refine ⟨x, by simp, ?_, ?_, .command, by simp, hx⟩
    · rcases hmem with hmem | hmem
      · exact hmem.symm
      · exact absurd (List.mem_singleton.mp hmem).symm (htoken hk)
    · rw [hinner, hinner, innerStatements_leaf hk, innerStatementsAll, List.append_nil,
        List.append_nil]
  · obtain ⟨x, rfl, hx⟩ := List.map_eq_singleton_iff.mp h
    refine ⟨x, by simp, (List.mem_singleton.mp hmem).symm, ?_, .command, by simp, hx⟩
    rw [hinner, innerStatementsAll, List.append_nil]
  · obtain ⟨k, x, l, rfl, hk, hx, hl⟩ := children_three h
    rw [hvalues, hvalues, List.mem_cons, List.mem_cons] at hmem
    refine ⟨x, by simp, ?_, ?_, .explainable, by simp, hx⟩
    · rcases hmem with hmem | hmem | hmem
      · exact absurd hmem.symm (htoken hk)
      · exact hmem.symm
      · exact absurd (List.mem_singleton.mp hmem).symm (htoken hl)
    · rw [hinner, hinner, hinner, innerStatements_leaf hk, innerStatements_leaf hl,
        innerStatementsAll, List.nil_append, List.append_nil, List.append_nil]
  · obtain ⟨k, x, rfl, hk, hx⟩ := children_two h
    rw [hvalues, List.mem_cons] at hmem
    refine ⟨x, by simp, ?_, ?_, .explainable, by simp, hx⟩
    · rcases hmem with hmem | hmem
      · exact absurd hmem.symm (htoken hk)
      · exact (List.mem_singleton.mp hmem).symm
    · rw [hinner, hinner, innerStatements_leaf hk, innerStatementsAll, List.nil_append,
        List.append_nil]

/-- The items of a statement that is a transaction are made from the statements
inside it. -/
theorem input_itemsMade {tree : ParseTree} (hvalid : tree.Valid SymbolType.kind statementGrammar)
    (hsymbol : tree.symbol SymbolType.kind = nt .input) {below : List Symbol}
    {next : Option Terminal} (hobeys : LR.Obeys statementGrammar SymbolType.kind below next tree)
    {s : ParsedStatement} (hs : statementOf tree = some s) :
    ItemsMade tree (.command s.command) := by
  cases hvalid with
  | leaf token => cases hsymbol
  | @node A children hrule hchildren =>
      obtain rfl : A = .input := LR.Sym.n.inj hsymbol
      rw [statementOf] at hs
      split at hs
      · next statement hvalue =>
          subst hs
          obtain ⟨x, hx, hcommand, hinner, A, hA, hsymbolx⟩ :=
            input_command hrule (inputAction_inv hvalue)
          rw [LR.Obeys] at hobeys
          obtain ⟨_, _, hobeysx⟩ := LR.obeys_of_mem hobeys.1 hx
          have hmade := command_itemsMade (hchildren x hx) hA hsymbolx hobeysx
          rw [hcommand] at hmade
          intro cmd hcmd
          rw [innerStatements, if_neg (by simp), hinner]
          exact hmade cmd hcmd
      · cases hs

/-- Every condition of a command that comes back was built from an expression
behind a WHERE of its own statement, whose tokens are together in the text. In a
transaction the items are made from the statements inside it, in their order,
and each condition stands behind a WHERE of the inner statement that its item
was made from. -/
theorem conditions_spelled {text : List SymbolType} {tree : ParseTree} {s : ParsedStatement}
    (htree : tree ∈ (parse text).statements) (hs : statementOf tree = some s) :
    tree.yield <:+: text ∧ (∀ w ∈ s.command.conditions, WhereWritten tree.yield w) ∧
      ∀ cmd, s.command = .explainable (.transact cmd) →
        List.Forall₂ MadeFrom (innerStatements tree) cmd.items := by
  refine ⟨(parseBatch_cut text _).statements tree htree, conditions_of_returned htree hs, ?_⟩
  obtain ⟨hvalid, hsymbol⟩ := (parseBatch_sound text _).derived tree htree
  intro cmd hcmd
  exact input_itemsMade hvalid hsymbol (statement_obeys htree) hs cmd (congrArg _ hcmd)

/-- The derivation of `DELETE FROM t WHERE lost = ..` in a transaction. -/
def deleteWhere (table : String) (value : SymbolType) : ParseTree :=
  .node .writeCommand [.node .deleteCommand [
    .leaf (keywordToken .kDelete "DELETE"), .leaf (keywordToken .kFrom "FROM"),
    .node .tableOptionalIndexName [.node .tableName [.node .string [.leaf (wordToken table)]]],
    .node .optionalWhereClause [.node .whereClause [
      .leaf (keywordToken .kWhere "WHERE"),
      .node .logicalExpression [.node .logicalExpressionElement [
        .node .leeLhs [.node .string [.leaf (wordToken "lost")]],
        .node .comparisonOp [.leaf (keywordToken .tEqual "=")],
        .node .leeRhs [.leaf value]]]]],
    .node .optionalRatelimit [], .node .optionalReturnValue []]]

/-- The derivation of `BEGIN; DELETE FROM books WHERE lost = TRUE;
DELETE FROM loans WHERE lost = FALSE; COMMIT`. -/
def twoDeletes : ParseTree :=
  .node .input [.node .command [.node .transactCommand [
    .leaf (keywordToken .kBegin "BEGIN"), .leaf (keywordToken .semicolon ";"),
    .node .transactWriteCommand [
      .node .transactWriteCommand [
        deleteWhere "books" (keywordToken .kTrue "TRUE"), .leaf (keywordToken .semicolon ";")],
      deleteWhere "loans" (keywordToken .kFalse "FALSE"), .leaf (keywordToken .semicolon ";")],
    .leaf (keywordToken .kCommit "COMMIT")]]]

def deleteLost (table : String) (value : Bool) : TransactItem :=
  .delete { table := table,
            condition := some ⟨logicalComparison "lost" (.op .equal) (.BOOL value)⟩ }

theorem conditions_spelled_twoDeletes :
    twoDeletes ∈ (parse twoDeletes.yield).statements ∧
      MadeFrom (deleteWhere "books" (keywordToken .kTrue "TRUE")) (deleteLost "books" true) ∧
      MadeFrom (deleteWhere "loans" (keywordToken .kFalse "FALSE")) (deleteLost "loans" false) := by
  have hvalid : twoDeletes.Valid SymbolType.kind statementGrammar := by decide +kernel
  have htree : StatementTree none twoDeletes :=
    ⟨hvalid, rfl, by decide, LR.obeys_of_single hvalid _ _ (by decide), .inl rfl, rfl⟩
  have htrees : BatchTrees [twoDeletes] := ⟨htree, trivial⟩
  have hreturned : twoDeletes ∈ (parse twoDeletes.yield).statements := by
    rw [htrees.parse_eq (List.append_nil _)]
    exact List.mem_singleton_self _
  have hstatement : statementOf twoDeletes = some ⟨.explainable (.transact {
      access := .write
      items := [deleteLost "books" true, deleteLost "loans" false] }), false⟩ := rfl
  obtain ⟨-, -, hitems⟩ := conditions_spelled hreturned hstatement
  cases hitems _ rfl with
  | cons hbooks hmade =>
      cases hmade with
      | cons hloans => exact ⟨hreturned, hbooks, hloans⟩

end DdbShell
