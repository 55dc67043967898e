import DdbShell.Parser.WhereRead

/-!
The conditions of the commands that come back. A condition is passed on from
its WHERE clause to the command, and from there to the transaction or the
statement around it; no action makes up one. So whatever a batch returns, each
condition in it was built from an expression that the statement's tokens spell.
-/

namespace DdbShell

open LR (Config Tree)

/-! ### The conditions of a value -/

def TransactItem.conditions : TransactItem → List Where
  | .select cmd => cmd.condition.toList
  | .update cmd => cmd.condition.toList
  | .delete cmd => cmd.condition.toList
  | .insert _ | .placeholder => []

def Explainable.conditions : Explainable → List Where
  | .select cmd => cmd.condition.toList
  | .update cmd => cmd.condition.toList
  | .delete cmd => cmd.condition.toList
  | .transact cmd => cmd.items.flatMap TransactItem.conditions
  | _ => []

def CommandNode.conditions : CommandNode → List Where
  | .explainable command => command.conditions
  | _ => []

def Semantic.conditions : Semantic → List Where
  | .clause w => [w]
  | .optionalClause w => w.toList
  | .command node => node.conditions
  | .transact cmd => cmd.items.flatMap TransactItem.conditions
  | .statement s => s.toList.flatMap fun s => s.command.conditions
  | _ => []

def Semantic.isTransaction : Semantic → Bool
  | .command (.explainable (.transact _)) => true
  | _ => false

/-- Neither conditions nor a transaction. -/
def Semantic.Bare (v : Semantic) : Prop := v.conditions = [] ∧ v.isTransaction = false

/-! ### The actions of commands -/

/-- The commands that have no condition. -/
def unconditional : List Nonterminal := [
  .quitCommand, .showVersionCommand, .helpCommand, .connectCommand, .dropTableCommand,
  .describeCommand, .createBackupCommand, .dropBackupCommand, .describeBackupCommand,
  .restoreCommand, .showBackupsCommand, .showLimitsCommand, .showCreateTableCommand,
  .showTablesCommand, .createTableCommand, .alterTableCommand, .insertCommand, .replaceCommand]

/-- The nonterminals on the way from a clause to a statement. -/
def conditional : List Nonterminal := [
  .input, .command, .explainable, .controlCommand, .ddlCommand, .dmlCommand, .getCommand,
  .writeCommand, .showCommand, .selectCommand, .updateCommand, .upsertCommand, .deleteCommand,
  .existsCommand, .transactCommand, .transactGetCommand, .transactWriteCommand,
  .optionalWhereClause, .whereClause]

theorem alterClause_bare (table : String) (v : Semantic) :
    (RuleAction.alterClause table v).Bare := by
  fun_cases RuleAction.alterClause table v <;> exact ⟨rfl, rfl⟩

theorem alterPair_bare (table : String) (v w : Semantic) :
    (RuleAction.alterPair table v w).Bare := by
  fun_cases RuleAction.alterPair table v w
  case case4 setting state =>
    unfold RuleAction.alterSwitch
    split <;> exact ⟨rfl, rfl⟩
  all_goals exact ⟨rfl, rfl⟩

theorem alterParts_bare (table : String) (u v w : Semantic) :
    (RuleAction.alterParts table u v w).Bare := by
  fun_cases RuleAction.alterParts table u v w <;> exact ⟨rfl, rfl⟩

theorem alterTable_bare (vs : List Semantic) :
    (RuleAction.alterTableAction vs).Bare := by
  fun_cases RuleAction.alterTableAction vs
  case case1 => exact alterClause_bare _ _
  case case2 => exact alterPair_bare _ _ _
  case case3 => exact alterParts_bare _ _ _ _
  all_goals exact ⟨rfl, rfl⟩

theorem bare_of_unconditional {A : Nonterminal} (h : A ∈ unconditional)
    (vs : List Semantic) : (ruleAction A vs).Bare := by
  simp only [unconditional, List.mem_cons, List.not_mem_nil, or_false] at h
  rcases h with rfl | rfl | rfl | rfl | rfl | rfl | rfl | rfl | rfl | rfl | rfl | rfl | rfl | rfl |
    rfl | rfl | rfl | rfl
  · exact ⟨rfl, rfl⟩
  · exact ⟨rfl, rfl⟩
  · change (RuleAction.helpAction vs).Bare
    unfold RuleAction.helpAction
    cases RuleAction.helpTopic _ <;> exact ⟨rfl, rfl⟩
  · change (RuleAction.connectAction vs).Bare
    fun_cases RuleAction.connectAction vs <;> exact ⟨rfl, rfl⟩
  · change (RuleAction.dropTableAction vs).Bare
    fun_cases RuleAction.dropTableAction vs <;> exact ⟨rfl, rfl⟩
  · change (RuleAction.describeAction vs).Bare
    fun_cases RuleAction.describeAction vs <;> exact ⟨rfl, rfl⟩
  · change (RuleAction.createBackupAction vs).Bare
    fun_cases RuleAction.createBackupAction vs <;> exact ⟨rfl, rfl⟩
  · change (RuleAction.dropBackupAction vs).Bare
    fun_cases RuleAction.dropBackupAction vs <;> exact ⟨rfl, rfl⟩
  · change (RuleAction.describeBackupAction vs).Bare
    fun_cases RuleAction.describeBackupAction vs <;> exact ⟨rfl, rfl⟩
  · change (RuleAction.restoreAction vs).Bare
    fun_cases RuleAction.restoreAction vs <;> exact ⟨rfl, rfl⟩
  · change (RuleAction.showBackupsAction vs).Bare
    fun_cases RuleAction.showBackupsAction vs <;> exact ⟨rfl, rfl⟩
  · exact ⟨rfl, rfl⟩
  · change (RuleAction.showCreateTableAction vs).Bare
    fun_cases RuleAction.showCreateTableAction vs <;> exact ⟨rfl, rfl⟩
  · change (RuleAction.showTablesAction vs).Bare
    fun_cases RuleAction.showTablesAction vs <;> exact ⟨rfl, rfl⟩
  · change (RuleAction.createTableAction vs).Bare
    fun_cases RuleAction.createTableAction vs <;> exact ⟨rfl, rfl⟩
  · exact alterTable_bare vs
  · change (RuleAction.insertAction vs).Bare
    fun_cases RuleAction.insertAction vs <;> exact ⟨rfl, rfl⟩
  · change (RuleAction.replaceAction vs).Bare
    fun_cases RuleAction.replaceAction vs <;> exact ⟨rfl, rfl⟩

section Passing

variable {P : Where → Prop}

/-- The conditions of a value of such a symbol are fine; a token has none. -/
def Fine (P : Where → Prop) : Symbol → Semantic → Prop
  | .t _, v => ∃ token, v = .token token
  | .n A, v => A ∈ conditional ∨ A ∈ unconditional → ∀ w ∈ v.conditions, P w

theorem Fine.at {A : Nonterminal} {v : Semantic} (h : Fine P (nt A) v)
    (hA : A ∈ conditional ∨ A ∈ unconditional) : ∀ w ∈ v.conditions, P w :=
  h hA

theorem Fine.mono {Q : Where → Prop} {X : Symbol} {v : Semantic} (h : Fine P X v)
    (hsub : ∀ w, P w → Q w) : Fine Q X v := by
  cases X with
  | t token => exact h
  | n A => exact fun hA w hw => hsub w (h hA w hw)

theorem fine_nothing {w : Where} (h : w ∈ Semantic.other.conditions) : P w := by
  cases h

/-- The nonterminals whose values are passed on as they are. -/
def passing : List Nonterminal := [
  .command, .explainable, .controlCommand, .ddlCommand, .dmlCommand, .getCommand, .writeCommand,
  .showCommand]

theorem passing_closed : (passing.all fun A => (productions A).all fun rhs =>
    match rhs with
    | [.n B] => B ∈ conditional ∨ B ∈ unconditional
    | _ => false) = true := by
  decide +kernel

variable {rhs : List Symbol} {vs : List Semantic}

theorem fine_passing {A : Nonterminal} (hA : A ∈ passing) (hrhs : rhs ∈ productions A)
    (h : List.Forall₂ (Fine P) rhs vs) : ∀ w ∈ (RuleAction.passAction vs).conditions, P w := by
  have hone := List.all_eq_true.mp (List.all_eq_true.mp passing_closed A hA) rhs hrhs
  split at hone
  · next B =>
      cases h with
      | cons hv hothers =>
          cases hothers
          exact hv.at (of_decide_eq_true hone)
  · cases hone

theorem fine_select (hrhs : rhs ∈ productions .selectCommand)
    (h : List.Forall₂ (Fine P) rhs vs) : ∀ w ∈ (RuleAction.selectAction vs).conditions, P w := by
  rw [productions, List.mem_singleton] at hrhs
  subst hrhs
  fun_cases RuleAction.selectAction vs
  · intro w hw
    cases hw
  · rcases h with _ | ⟨-, _ | ⟨-, _ | ⟨-, _ | ⟨-, _ | ⟨-, _ | ⟨hclause, -⟩⟩⟩⟩⟩⟩
    exact hclause.at (by decide)
  · exact fun w hw => fine_nothing hw

theorem fine_update {A : Nonterminal} {upsert : Bool}
    (hA : A = .updateCommand ∨ A = .upsertCommand) (hrhs : rhs ∈ productions A)
    (h : List.Forall₂ (Fine P) rhs vs) :
    ∀ w ∈ (RuleAction.updateAction upsert vs).conditions, P w := by
  -- the clause is the fifth symbol of all three rules
  have hclause : ∃ X₀ X₁ X₂ X₃ Xs, rhs = X₀ :: X₁ :: X₂ :: X₃ :: nt .optionalWhereClause :: Xs := by
    rcases hA with rfl | rfl
    · simp only [productions, List.mem_cons, List.not_mem_nil, or_false] at hrhs
      rcases hrhs with rfl | rfl <;> exact ⟨_, _, _, _, _, rfl⟩
    · rw [productions, List.mem_singleton] at hrhs
      exact ⟨_, _, _, _, _, hrhs⟩
  obtain ⟨X₀, X₁, X₂, X₃, Xs, rfl⟩ := hclause
  fun_cases RuleAction.updateAction upsert vs
  · rcases h with _ | ⟨-, _ | ⟨-, _ | ⟨-, _ | ⟨-, _ | ⟨hclause, -⟩⟩⟩⟩⟩
    exact hclause.at (by decide)
  · rcases h with _ | ⟨-, _ | ⟨-, _ | ⟨-, _ | ⟨-, _ | ⟨hclause, -⟩⟩⟩⟩⟩
    exact hclause.at (by decide)
  · exact fun w hw => fine_nothing hw

theorem fine_delete (hrhs : rhs ∈ productions .deleteCommand)
    (h : List.Forall₂ (Fine P) rhs vs) : ∀ w ∈ (RuleAction.deleteAction vs).conditions, P w := by
  rw [productions, List.mem_singleton] at hrhs
  subst hrhs
  fun_cases RuleAction.deleteAction vs
  · rcases h with _ | ⟨-, _ | ⟨-, _ | ⟨-, _ | ⟨hclause, -⟩⟩⟩⟩
    exact hclause.at (by decide)
  · exact fun w hw => fine_nothing hw

theorem existsMode_conditions (mode : ExistsMode) (node : CommandNode) :
    (RuleAction.existsMode mode node).conditions = node.conditions := by
  fun_cases RuleAction.existsMode mode node <;> rfl

theorem fine_exists (hrhs : rhs ∈ productions .existsCommand)
    (h : List.Forall₂ (Fine P) rhs vs) : ∀ w ∈ (RuleAction.existsAction vs).conditions, P w := by
  simp only [productions, List.mem_cons, List.not_mem_nil, or_false] at hrhs
  fun_cases RuleAction.existsAction vs
  · rcases hrhs with rfl | rfl
    · rcases h with _ | ⟨-, _ | ⟨hselect, -⟩⟩
      rw [Semantic.conditions, existsMode_conditions]
      exact hselect.at (by decide)
    · cases List.Forall₂.length_eq h
  · rcases hrhs with rfl | rfl
    · cases List.Forall₂.length_eq h
    · rcases h with _ | ⟨-, _ | ⟨-, _ | ⟨hselect, -⟩⟩⟩
      rw [Semantic.conditions, existsMode_conditions]
      exact hselect.at (by decide)
  · exact fun w hw => fine_nothing hw

theorem transactItem_conditions {node : CommandNode} {w : Where}
    (h : w ∈ node.transactItem.conditions) : w ∈ node.conditions := by
  revert h
  fun_cases CommandNode.transactItem node
  · exact id
  · intro h
    cases h
  · exact id
  · exact id
  · intro h
    cases h

theorem fine_transactItems {A B : Nonterminal} {access : TransactAccess}
    (hrules : productions A = [[nt B, tok .semicolon], [nt A, nt B, tok .semicolon]])
    (hA : A ∈ conditional) (hB : B ∈ conditional) (hrhs : rhs ∈ productions A)
    (h : List.Forall₂ (Fine P) rhs vs) :
    ∀ w ∈ (RuleAction.transactItemsAction access vs).conditions, P w := by
  rw [hrules] at hrhs
  simp only [List.mem_cons, List.not_mem_nil, or_false] at hrhs
  fun_cases RuleAction.transactItemsAction access vs
  · rcases hrhs with rfl | rfl
    · rcases h with _ | ⟨hcommand, -⟩
      intro w hw
      rw [Semantic.conditions, List.flatMap_singleton] at hw
      exact hcommand.at (.inl hB) w (transactItem_conditions hw)
    · cases List.Forall₂.length_eq h
  · rcases hrhs with rfl | rfl
    · cases List.Forall₂.length_eq h
    · rcases h with _ | ⟨hitems, _ | ⟨hcommand, -⟩⟩
      intro w hw
      rw [Semantic.conditions, List.flatMap_append, List.flatMap_singleton, List.mem_append] at hw
      rcases hw with hw | hw
      · exact hitems.at (.inl hA) w hw
      · exact hcommand.at (.inl hB) w (transactItem_conditions hw)
  · exact fun w hw => fine_nothing hw

theorem fine_transact (hrhs : rhs ∈ productions .transactCommand)
    (h : List.Forall₂ (Fine P) rhs vs) : ∀ w ∈ (RuleAction.transactAction vs).conditions, P w := by
  simp only [productions, List.mem_cons, List.not_mem_nil, or_false] at hrhs
  fun_cases RuleAction.transactAction vs
  · rcases hrhs with rfl | rfl | rfl | rfl | rfl
    · rcases h with _ | ⟨-, _ | ⟨-, _ | ⟨hitems, -⟩⟩⟩
      exact hitems.at (by decide)
    · rcases h with _ | ⟨-, _ | ⟨-, _ | ⟨hitems, -⟩⟩⟩
      exact hitems.at (by decide)
    · rcases h with _ | ⟨-, _ | ⟨-, _ | ⟨hitems, -⟩⟩⟩
      exact hitems.at (by decide)
    · rcases h with _ | ⟨-, _ | ⟨-, _ | ⟨hitems, -⟩⟩⟩
      exact hitems.at (by decide)
    · cases List.Forall₂.length_eq h
  · intro w hw
    cases hw
  · exact fun w hw => fine_nothing hw

theorem fine_optionalClause (hrhs : rhs ∈ productions .optionalWhereClause)
    (h : List.Forall₂ (Fine P) rhs vs) :
    ∀ w ∈ (ruleAction .optionalWhereClause vs).conditions, P w := by
  simp only [productions, List.mem_cons, List.not_mem_nil, or_false] at hrhs
  rcases hrhs with rfl | rfl
  · cases h
    exact fun w hw => fine_nothing hw
  · rcases h with _ | ⟨hclause, _ | _⟩
    rename_i v
    have hwrapped : ∀ w ∈ (ruleAction .optionalWhereClause [v]).conditions,
        w ∈ v.conditions := by
      change ∀ w ∈ (((RuleAction.asClause v).map fun a => Semantic.optionalClause (some a)).getD
        .other).conditions, _
      fun_cases RuleAction.asClause v
      · exact fun w hw => hw
      · exact fun w hw => fine_nothing hw
    exact fun w hw => hclause.at (by decide) w (hwrapped w hw)

theorem fine_input (hrhs : rhs ∈ productions .input)
    (h : List.Forall₂ (Fine P) rhs vs) : ∀ w ∈ (RuleAction.inputAction vs).conditions, P w := by
  have hcommand : ∀ {A : Nonterminal} {node : CommandNode} {explain : Bool},
      Fine P (nt A) (.command node) → A ∈ conditional →
      ∀ w ∈ (Semantic.statement (some ⟨node, explain⟩)).conditions, P w := by
    intro A node explain hnode hA w hw
    rw [Semantic.conditions, Option.toList_some, List.flatMap_singleton] at hw
    exact hnode.at (.inl hA) w hw
  have htoken : ∀ {t : Terminal} {node : CommandNode}, ¬ Fine P (.t t) (.command node) := by
    rintro t node ⟨token, htoken⟩
    cases htoken
  simp only [productions, List.mem_cons, List.not_mem_nil, or_false] at hrhs
  fun_cases RuleAction.inputAction vs
  · exact fun w hw => fine_nothing hw
  · exact fun w hw => fine_nothing hw
  · rcases h with _ | ⟨h₁, _ | ⟨-, _ | _⟩⟩
    simp only [List.cons.injEq, and_true, reduceCtorEq, and_false, false_or] at hrhs
    rcases hrhs with ⟨rfl, rfl⟩ | ⟨rfl, rfl⟩
    · exact hcommand h₁ (by decide)
    · exact absurd h₁ htoken
  · rcases h with _ | ⟨h₁, _ | _⟩
    simp only [List.cons.injEq, and_true, reduceCtorEq, and_false, false_or, or_false] at hrhs
    rcases hrhs with rfl | rfl
    · exact absurd h₁ htoken
    · exact hcommand h₁ (by decide)
  · rcases h with _ | ⟨-, _ | ⟨h₂, _ | ⟨-, _ | _⟩⟩⟩
    simp only [List.cons.injEq, and_true, reduceCtorEq, and_false, false_or, or_false] at hrhs
    obtain ⟨rfl, rfl, rfl⟩ := hrhs
    exact hcommand h₂ (by decide)
  · rcases h with _ | ⟨-, _ | ⟨h₂, _ | _⟩⟩
    simp only [List.cons.injEq, and_true, reduceCtorEq, and_false, false_or] at hrhs
    rcases hrhs with ⟨rfl, rfl⟩ | ⟨rfl, rfl⟩
    · exact absurd h₂ htoken
    · exact hcommand h₂ (by decide)
  · exact fun w hw => fine_nothing hw

/-- The actions between a clause and its statement keep conditions fine. -/
theorem fine_action {A : Nonterminal} (hA : A ∈ conditional) (hclause : A ≠ .whereClause)
    (hrhs : rhs ∈ productions A) (h : List.Forall₂ (Fine P) rhs vs) :
    ∀ w ∈ (ruleAction A vs).conditions, P w := by
  simp only [conditional, List.mem_cons, List.not_mem_nil, or_false] at hA
  rcases hA with rfl | rfl | rfl | rfl | rfl | rfl | rfl | rfl | rfl | rfl | rfl | rfl | rfl | rfl |
    rfl | rfl | rfl | rfl | rfl
  · exact fine_input hrhs h
  · exact fine_passing (A := .command) (by decide) hrhs h
  · exact fine_passing (A := .explainable) (by decide) hrhs h
  · exact fine_passing (A := .controlCommand) (by decide) hrhs h
  · exact fine_passing (A := .ddlCommand) (by decide) hrhs h
  · exact fine_passing (A := .dmlCommand) (by decide) hrhs h
  · exact fine_passing (A := .getCommand) (by decide) hrhs h
  · exact fine_passing (A := .writeCommand) (by decide) hrhs h
  · exact fine_passing (A := .showCommand) (by decide) hrhs h
  · exact fine_select hrhs h
  · exact fine_update (.inl rfl) hrhs h
  · exact fine_update (.inr rfl) hrhs h
  · exact fine_delete hrhs h
  · exact fine_exists hrhs h
  · exact fine_transact hrhs h
  · exact fine_transactItems (B := .getCommand) rfl (by decide) (by decide) hrhs h
  · exact fine_transactItems (B := .writeCommand) rfl (by decide) (by decide) hrhs h
  · exact fine_optionalClause hrhs h
  · exact absurd rfl hclause

end Passing

/-! ### The conditions of a batch -/

/-- A condition whose clause is among these tokens. -/
def WhereWritten (ts : List SymbolType) (w : Where) : Prop :=
  ∃ (e : SourceExpr .or) (k : SymbolType) (us : List SymbolType), k.kind = .kind .kWhere ∧
    e.Spelled us ∧ k :: us <:+: ts ∧ w = ⟨e.build⟩

theorem WhereWritten.mono {ts us : List SymbolType} {w : Where} (h : WhereWritten ts w)
    (hsub : ts <:+: us) : WhereWritten us w := by
  obtain ⟨e, k, vs, hk, he, hvs, hw⟩ := h
  exact ⟨e, k, vs, hk, he, hvs.trans hsub, hw⟩

theorem clause_written {children : List ParseTree} {below : List Symbol} {next : Option Terminal}
    (hvalid : Tree.Valid SymbolType.kind statementGrammar (.node .whereClause children))
    (hobeys : LR.Obeys statementGrammar SymbolType.kind below next (.node .whereClause children)) :
    ∀ w ∈ (actions.value (.node .whereClause children)).conditions,
      WhereWritten (Tree.yieldAll children) w := by
  cases hvalid with
  | node hrule hchildren =>
      have hrhs : children.map (Tree.symbol SymbolType.kind) =
          [tok .kWhere, nt .logicalExpression] := List.mem_singleton.mp hrule
      obtain ⟨x, y, rfl, hx, hy⟩ := children_two hrhs
      obtain ⟨k, rfl, hk⟩ := leaf_of_symbol hx
      rw [LR.Obeys, LR.ObeysAll, LR.ObeysAll] at hobeys
      obtain ⟨e, he, hvalue⟩ :=
        (expression_spelled (hchildren y (by simp)) _ _ hy hobeys.1.2.1).toOr
      intro w hw
      change w ∈ (RuleAction.clauseOfAction [_, actions.value y]).conditions at hw
      rw [hvalue] at hw
      obtain rfl := List.mem_singleton.mp hw
      refine ⟨e, k, y.yield, hk, he, ?_, rfl⟩
      simp [Tree.yieldAll, Tree.yield]

/-- The conditions of a tree that obeys the precedences are written in it. -/
theorem conditions_written {tree : ParseTree}
    (hvalid : tree.Valid SymbolType.kind statementGrammar) :
    ∀ (below : List Symbol) (next : Option Terminal),
      LR.Obeys statementGrammar SymbolType.kind below next tree →
      Fine (WhereWritten tree.yield) (tree.symbol SymbolType.kind) (actions.value tree) := by
  induction hvalid with
  | leaf token => exact fun _ _ _ => ⟨token, rfl⟩
  | @node A children hrule hchildren ih =>
      intro below next hobeys hA
      rw [Tree.yield]
      rcases hA with hA | hA
      · by_cases hclause : A = .whereClause
        · subst hclause
          exact clause_written (.node hrule hchildren) hobeys
        · refine fine_action hA hclause hrule ?_
          rw [LR.Obeys] at hobeys
          refine LR.forall₂_values fun child hchild => ?_
          obtain ⟨below', next', hchildObeys⟩ := LR.obeys_of_mem hobeys.1 hchild
          exact (ih child hchild below' next' hchildObeys).mono fun w hw =>
            hw.mono (Tree.yield_infix hchild)
      · rw [show actions.value (.node A children) = ruleAction A (actions.values children) from rfl,
          (bare_of_unconditional hA _).1]
        simp

/-! ### Where a statement is -/

/-- The parser reads on from somewhere in the text, and has taken statements
out of it whole. -/
structure BatchCut (text : List SymbolType) (b : BatchState) : Prop where
  left : b.phase = .running → b.parser.text <:+ text
  statements : ∀ tree ∈ b.statements, tree.yield <:+: text

theorem accepted_cut {text : List SymbolType} {b : BatchState} (hb : BatchCut text b)
    {tree : ParseTree} {c : Config SymbolType Nonterminal}
    (htext : tree.yield ++ (c.look.toList ++ c.input) <:+ text) :
    BatchCut text (b.accepted tree c) := by
  refine ⟨fun hrunning => ?_, ?_⟩
  · rw [(accepted_of_running hrunning).1, BatchState.returned_rest, Config.fresh_text]
    rw [← List.append_assoc] at htext
    exact (List.suffix_append _ _).trans htext
  · rcases accepted_cases b tree c with ⟨-, hstatements, -⟩ | ⟨haccepted, -⟩
    · rw [hstatements]
      exact hb.statements
    · rw [haccepted]
      intro statement hstatement
      rcases List.mem_append.mp hstatement with hstatement | hstatement
      · exact hb.statements statement hstatement
      · obtain rfl := List.mem_singleton.mp hstatement
        exact (List.prefix_append _ _).isInfix.trans htext.isInfix

theorem step_cut {text : List SymbolType} {b : BatchState} (hsound : BatchSound b)
    (hb : BatchCut text b) : BatchCut text b.step := by
  unfold BatchState.step
  split
  · rename_i hphase
    split
    · rename_i parser hstep
      refine ⟨fun _ => ?_, hb.statements⟩
      rw [(LR.step_next statementGrammar_startApart hsound.parser hstep).2]
      exact hb.left hphase
    · rename_i tree parser hstep
      obtain ⟨-, rfl, rfl, -⟩ := LR.step_accept statementGrammar_startApart hsound.parser hstep
      exact accepted_cut hb (hb.left hphase)
    · exact ⟨fun h => (by cases h), hb.statements⟩
  · exact hb
  · exact hb

theorem parseBatch_cut (text : List SymbolType) (n : Nat) : BatchCut text (parseBatch text n) := by
  induction n with
  | zero => exact ⟨fun _ => List.suffix_refl _, fun tree htree => by cases htree⟩
  | succ n ih => exact step_cut (parseBatch_sound text n) ih

/-- Every condition of a command that comes back was built from an expression
behind a WHERE of its own statement. -/
theorem conditions_of_returned {text : List SymbolType} {tree : ParseTree} {s : ParsedStatement}
    (htree : tree ∈ (parse text).statements) (hs : statementOf tree = some s) :
    ∀ w ∈ s.command.conditions, WhereWritten tree.yield w := by
  obtain ⟨hvalid, hsymbol⟩ := (parseBatch_sound text _).derived tree htree
  have hfine := conditions_written hvalid [] none (statement_obeys htree)
  rw [hsymbol] at hfine
  intro w hw
  refine hfine.at (.inl (by decide)) w ?_
  rw [statementOf] at hs
  split at hs
  · rename_i statement hvalue
    rw [hvalue, hs]
    simpa [Semantic.conditions] using hw
  · cases hs

end DdbShell
