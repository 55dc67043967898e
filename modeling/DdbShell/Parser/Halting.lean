import DdbShell.Lib.Halting
import DdbShell.Parser.Batch
import Mathlib.Logic.Relation

/-!
`parse_batch` returns on every text. Each move of a parser lowers its
potential, and each accepted statement leaves less of it to the next parser, so
the number of moves is linear in the number of tokens.
-/

namespace DdbShell

open LR (Config Tree)

/-! ### Ranks of the statement grammar -/

def nonterminals : List Nonterminal := (List.range 125).map Nonterminal.ofNat

theorem mem_nonterminals (A : Nonterminal) : A ∈ nonterminals := by
  refine List.mem_map.mpr ⟨A.ctorIdx, ?_, ?_⟩
  · cases A <;> decide
  · cases A <;> rfl

/-- How many rules with one part that is not empty can follow one another below
a nonterminal. -/
def rank : Nonterminal → Nat
  | .input | .selectProjection => 5
  | .command | .explainable | .selectAttributeList => 4
  | .dmlCommand | .removeList | .insertColumnList | .selectAttribute
  | .tableOptionalIndexName => 3
  | .controlCommand | .ddlCommand | .getCommand | .writeCommand | .showCommand
  | .optionalBackupType | .optionalTableName | .alterTableGsiDrop | .alterTableGsiUpdate
  | .optionalProvisionedThroughputOverride | .replicaGsiSpecificationList
  | .attributeNameTypeList | .keyRoleList | .keyAttrGroup | .keyAttrNameList
  | .optionalBillingModeAndThroughput | .optionalWarmThroughput | .gsiSpecification
  | .lsiSpecification | .vectorIndexSpecification | .vectorSearchSchemaList
  | .indexProjectionList | .optionalStreamSpecification | .optionalSseSpecification
  | .optionalTableClass | .optionalDeletionProtection | .optionalTableTags | .tableTagsList
  | .setList | .tableName | .insertColumn | .insertValues | .leeRhsList | .optionalRatelimit
  | .optionalWhereClause | .logicalExpression | .leeLhs | .regionName => 2
  | _ => 1

/-- What a right-hand side begins with is not nullable, and ranks below the
left-hand side where the rest can be empty. -/
def headChecked (A : Nonterminal) : List Symbol → Bool
  | .n B :: rest =>
      !statementGrammar.nullable B &&
        (!rest.all statementGrammar.nullableSym || decide (rank B < rank A))
  | _ => true

def rankChecked (A : Nonterminal) (rhs : List Symbol) : Bool :=
  decide (rhs.countP statementGrammar.nullableSym ≤ 12) && headChecked A rhs

theorem rankChecked_all :
    (nonterminals.all fun A => (productions A).all (rankChecked A)) = true := by
  decide +kernel

theorem rankChecked_rule {A : Nonterminal} {rhs : List Symbol} (h : rhs ∈ productions A) :
    rhs.countP statementGrammar.nullableSym ≤ 12 ∧ headChecked A rhs = true := by
  have hA := List.all_eq_true.mp rankChecked_all A (mem_nonterminals A)
  exact (Bool.and_eq_true_iff.mp (List.all_eq_true.mp hA rhs h)).imp_left of_decide_eq_true

def statementRanking : LR.Ranking statementGrammar where
  rank := rank
  height := 5
  width := 12
  pos A := by cases A <;> decide
  le_height A := by cases A <;> decide
  le_width A rhs hrhs := (rankChecked_rule hrhs).1
  head A rhs hrhs X hX := by
    have hhead := (rankChecked_rule hrhs).2
    cases rhs with
    | nil => cases hX
    | cons Y rest =>
        obtain rfl := Option.some.inj hX
        cases Y with
        | t t => rfl
        | n B => exact (Bool.not_eq_true' _).mp (Bool.and_eq_true_iff.mp hhead).1
  rises A rhs hrhs hall B hB := by
    have hhead := (rankChecked_rule hrhs).2
    cases rhs with
    | nil => cases hB
    | cons Y rest =>
        obtain rfl := Option.some.inj hB
        have hrises := (Bool.and_eq_true_iff.mp hhead).2
        rw [List.tail_cons] at hall
        rw [hall] at hrises
        exact of_decide_eq_true hrises

/-! ### The batch loop ends -/

/-- What an accepted statement leaves to the next parser. -/
theorem accepted_potential {b : BatchState} (hb : BatchSound b) {tree : ParseTree}
    {c : Config SymbolType Nonterminal}
    (h : statementGrammar.step SymbolType.kind b.parser = .accept tree c)
    (hrunning : (b.accepted tree c).phase = .running) :
    statementRanking.potential SymbolType.kind (b.accepted tree c).parser <
      statementRanking.potential SymbolType.kind b.parser := by
  obtain ⟨haccepted, -, hempty⟩ := accepted_of_running hrunning
  obtain ⟨-, htree, hconfig, -⟩ := LR.step_accept statementGrammar_startApart hb.parser h
  rw [haccepted, BatchState.returned_rest]
  by_cases hstack : b.parser.stack = []
  · -- the empty statement takes the character that was read
    rw [hstack] at htree
    obtain ⟨token, hlook, -⟩ := hempty _ htree
    have hinput : c.input = b.parser.input := by rw [hconfig]
    rw [hconfig] at hlook
    rw [hinput]
    exact LR.token_potential statementRanking hlook
  · exact LR.accept_potential statementRanking statementGrammar_startApart hb.parser h hstack

theorem batch_step_potential {b : BatchState} (hb : BatchSound b) (hphase : b.phase = .running)
    (hrunning : b.step.phase = .running) :
    statementRanking.potential SymbolType.kind b.step.parser <
      statementRanking.potential SymbolType.kind b.parser := by
  cases hmove : statementGrammar.step SymbolType.kind b.parser with
  | next c =>
      have hstep : b.step = { b with parser := c } := by
        simp only [BatchState.step, hphase, hmove]
      rw [hstep]
      exact LR.step_potential statementRanking statementGrammar_startApart hb.parser hmove
  | accept tree c =>
      have hstep : b.step = b.accepted tree c := by
        simp only [BatchState.step, hphase, hmove]
      rw [hstep] at hrunning ⊢
      exact accepted_potential hb hmove hrunning
  | error =>
      have hstep : b.step = b.syntaxError b.parser := by
        simp only [BatchState.step, hphase, hmove]
      rw [hstep] at hrunning
      cases hrunning

/-- While the loop runs, every move has used up some of the potential of the
whole text. -/
theorem parseBatch_potential (text : List SymbolType) (n : Nat)
    (hrunning : (parseBatch text n).phase = .running) :
    statementRanking.potential SymbolType.kind (parseBatch text n).parser + n ≤
      144 * text.length + 1 := by
  induction n with
  | zero =>
      have hfresh : statementRanking.potential SymbolType.kind (Config.fresh text) =
          statementRanking.tokenWeight * text.length + 1 := LR.fresh_potential statementRanking text
      have hweight : statementRanking.tokenWeight = 144 := rfl
      rw [parseBatch, BatchState.start, hfresh, hweight, Nat.add_zero]
  | succ n ih =>
      have hphase : (parseBatch text n).phase = .running := by
        by_contra hstopped
        rw [parseBatch, step_stopped hstopped] at hrunning
        exact hstopped hrunning
      have hstep := batch_step_potential (parseBatch_sound text n) hphase hrunning
      have hprior := ih hphase
      rw [parseBatch]
      omega

theorem parseBatch_stays {text : List SymbolType} {m n : Nat} (hmn : m ≤ n)
    (hphase : (parseBatch text m).phase ≠ .running) : parseBatch text n = parseBatch text m := by
  induction hmn with
  | refl => rfl
  | step _ ih => rw [parseBatch, ih, step_stopped hphase]

/-- The moves within which `parse_batch` is done with a text. -/
def moveBound (text : List SymbolType) : Nat := 144 * text.length + 2

/-- What `parse_batch` returns. -/
def parse (text : List SymbolType) : BatchState := parseBatch text (moveBound text)

theorem parse_stopped (text : List SymbolType) : (parse text).phase ≠ .running := by
  intro hrunning
  have hle := parseBatch_potential text _ hrunning
  rw [moveBound] at hle
  omega

/-- On every text the batch loop ends, with a number of moves linear in the
tokens, and nothing changes afterwards. -/
theorem parse_ends (text : List SymbolType) :
    (parse text).phase ≠ .running ∧ ∀ n, moveBound text ≤ n → parseBatch text n = parse text :=
  ⟨parse_stopped text, fun _ hn => parseBatch_stays hn (parse_stopped text)⟩

/-! ### Runs of the batch loop -/

/-- The batch loop comes from one state to the other. -/
def BatchState.Steps : BatchState → BatchState → Prop :=
  Relation.ReflTransGen fun b b' => b.step = b'

theorem steps_parseBatch (text : List SymbolType) (n : Nat) :
    (BatchState.start text).Steps (parseBatch text n) := by
  induction n with
  | zero => exact .refl
  | succ n ih => exact ih.tail rfl

/-- Wherever a run has ended, it has ended with what `parse_batch` returns. -/
theorem BatchState.Steps.parse_eq {text : List SymbolType} {b : BatchState}
    (h : (BatchState.start text).Steps b) (hphase : b.phase ≠ .running) : parse text = b := by
  have hreached : ∃ n, parseBatch text n = b := by
    clear hphase
    induction h with
    | refl => exact ⟨0, rfl⟩
    | tail _ hstep ih =>
        obtain ⟨n, rfl⟩ := ih
        exact ⟨n + 1, hstep⟩
  obtain ⟨n, rfl⟩ := hreached
  have hparse : parseBatch text (max (moveBound text) n) = parse text :=
    parseBatch_stays (Nat.le_max_left _ n) (parse_stopped text)
  rw [← hparse]
  exact parseBatch_stays (Nat.le_max_right _ n) hphase

/-- At the end of the text the batch is finished. -/
theorem end_steps {b : BatchState} (hphase : b.phase = .running)
    (hparser : b.parser = Config.fresh []) :
    b.Steps { b with phase := .finished, parser := Config.fresh [] } := by
  have hread : statementGrammar.step SymbolType.kind (Config.fresh []) =
      .next ⟨[], .atEnd, []⟩ := by
    have hneeds : statementGrammar.needsToken
        (statementGrammar.items SymbolType.kind (Config.fresh [])) = true := by decide +kernel
    rw [LR.Grammar.step, hneeds]
    rfl
  have haccept : statementGrammar.step SymbolType.kind ⟨[], .atEnd, []⟩ =
      .accept (.node .input []) ⟨[], .atEnd, []⟩ := by
    have haction : statementGrammar.action (statementGrammar.items SymbolType.kind
        (⟨[], .atEnd, []⟩ : Config SymbolType Nonterminal)) none = .reduce ⟨.input, [], []⟩ := by
      decide +kernel
    simp only [LR.Grammar.step, LR.Look.isUnread, Bool.false_and, Bool.false_eq_true, if_false,
      LR.Look.terminal, haction]
    rfl
  refine .tail (b := { b with parser := ⟨[], .atEnd, []⟩ }) (.single ?_) ?_
  · simp only [BatchState.step, hphase, hparser, hread]
  · simp only [BatchState.step, hphase, haccept, BatchState.accepted]

end DdbShell
