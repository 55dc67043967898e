import DdbShell.Parser.Reading

/-!
WHERE clauses as the parser reads them. `SourceExpr` states the declared
precedences as levels of a grammar; here each of its expressions, spelled in
tokens, is shown to be what the automaton makes of them. What stands below an
expression on the stack and what comes behind it decide whether it may go on:
a NOT or an AND below binds it tighter than an AND or an OR behind it.
-/

namespace DdbShell

open Infix (Prec)
open LR (Parses ParsesAll ParsesAnywhere)

/-! ### Spellings -/

/-- `lee_lhs`, with the text it stands for. -/
inductive PathSpelled : String → List SymbolType → Prop where
  | name {t : SymbolType} {s : String} (name : Literal.stringValue t = some s) : PathSpelled s [t]
  | index {path : String} {ts : List SymbolType} {o n c : SymbolType} (front : PathSpelled path ts)
      (opens : o.kind = .character '[') (number : n.kind = .kind .tWholeNumber)
      (closes : c.kind = .character ']') :
      PathSpelled (path ++ "[" ++ n.lexeme ++ "]") (ts ++ [o, n, c])
  | field {path s : String} {ts : List SymbolType} {d t : SymbolType} (front : PathSpelled path ts)
      (dot : d.kind = .character '.') (name : Literal.stringValue t = some s) :
      PathSpelled (path ++ "." ++ s) (ts ++ [d, t])

def comparisonOf (t : SymbolType) : Option ComparisonToken :=
  match t.kind with
  | .kind .tEqual => some (.op .equal)
  | .kind .tGreaterThan => some (.op .greaterThan)
  | .kind .tGreaterThanOrEqual => some (.op .greaterThanOrEqual)
  | .kind .tLessThan => some (.op .lessThan)
  | .kind .tLessThanOrEqual => some (.op .lessThanOrEqual)
  | .kind .tNotEqual => some (if t.lexeme = "!=" then .bangEqual else .op .notEqual)
  | _ => none

def attributeTypeOf (t : SymbolType) : Option ScalarType :=
  match t.kind with
  | .kind .kAttributeTypeNumber => some .n
  | .kind .kAttributeTypeString => some .s
  | .kind .kAttributeTypeBinary => some .b
  | _ => none

/-- The tokens are of these kinds, one by one. -/
def Kinds : List SymbolType → List Terminal → Prop
  | [], [] => True
  | t :: ts, kind :: kinds => t.kind = kind ∧ Kinds ts kinds
  | _, _ => False

inductive Element.Spelled : Element → List SymbolType → Prop where
  | comparison {lhs : String} {ps vs : List SymbolType} {t : SymbolType} {op : ComparisonToken}
      {v : Value} (path : PathSpelled lhs ps) (operator : comparisonOf t = some op)
      (value : Literal.LeeRhs vs v) : Spelled (.comparison lhs op v) (ps ++ t :: vs)
  | isNull {lhs : String} {ps : List SymbolType} {t u : SymbolType} (path : PathSpelled lhs ps)
      (words : Kinds [t, u] [.kind .kIs, .kind .kNull]) : Spelled (.isNull lhs) (ps ++ [t, u])
  | isNotNull {lhs : String} {ps : List SymbolType} {t u w : SymbolType}
      (path : PathSpelled lhs ps)
      (words : Kinds [t, u, w] [.kind .kIs, .kind .kNot, .kind .kNull]) :
      Spelled (.isNotNull lhs) (ps ++ [t, u, w])
  | between {lhs : String} {ps ls hs : List SymbolType} {t u : SymbolType} {lo hi : Value}
      (path : PathSpelled lhs ps) (words : Kinds [t, u] [.kind .kBetween, .kind .kAnd])
      (low : Literal.LeeRhs ls lo) (high : Literal.LeeRhs hs hi) :
      Spelled (.between lhs lo hi) (ps ++ t :: (ls ++ u :: hs))
  | isIn {lhs : String} {ps vs : List SymbolType} {t o c : SymbolType} {first : Value}
      {rest : List Value} (path : PathSpelled lhs ps)
      (words : Kinds [t, o, c] [.kind .kIn, .character '(', .character ')'])
      (values : Literal.Derives vs (.leeRhsList (first :: rest))) :
      Spelled (.isIn lhs first rest) (ps ++ t :: o :: (vs ++ [c]))
  | attributeExists {lhs : String} {ps : List SymbolType} {t o c : SymbolType}
      (words : Kinds [t, o, c] [.kind .kAttributeExists, .character '(', .character ')'])
      (path : PathSpelled lhs ps) : Spelled (.attributeExists lhs) (t :: o :: (ps ++ [c]))
  | attributeNotExists {lhs : String} {ps : List SymbolType} {t o c : SymbolType}
      (words : Kinds [t, o, c] [.kind .kAttributeNotExists, .character '(', .character ')'])
      (path : PathSpelled lhs ps) : Spelled (.attributeNotExists lhs) (t :: o :: (ps ++ [c]))
  | attributeType {lhs : String} {ps : List SymbolType} {t o s y c : SymbolType} {a : ScalarType}
      (words : Kinds [t, o, s, c]
        [.kind .kAttributeType, .character '(', .character ',', .character ')'])
      (path : PathSpelled lhs ps) (type : attributeTypeOf y = some a) :
      Spelled (.attributeType lhs a) (t :: o :: (ps ++ [s, y, c]))
  | beginsWith {lhs start : String} {ps : List SymbolType} {t o s y c : SymbolType}
      (words : Kinds [t, o, s, c]
        [.kind .kBeginsWith, .character '(', .character ',', .character ')'])
      (path : PathSpelled lhs ps) (operand : Literal.stringValue y = some start) :
      Spelled (.beginsWith lhs start) (t :: o :: (ps ++ [s, y, c]))
  | contains {lhs operand : String} {ps : List SymbolType} {t o s y c : SymbolType}
      (words : Kinds [t, o, s, c]
        [.kind .kContains, .character '(', .character ',', .character ')'])
      (path : PathSpelled lhs ps) (string : Literal.stringValue y = some operand) :
      Spelled (.contains lhs operand) (t :: o :: (ps ++ [s, y, c]))
  | size {lhs : String} {ps vs : List SymbolType} {t o c y : SymbolType} {op : ComparisonToken}
      {v : Value} (words : Kinds [t, o, c] [.kind .kSize, .character '(', .character ')'])
      (path : PathSpelled lhs ps) (operator : comparisonOf y = some op)
      (value : Literal.LeeRhs vs v) : Spelled (.size lhs op v) (t :: o :: (ps ++ c :: y :: vs))

inductive SourceExpr.Spelled : {p : Prec} → SourceExpr p → List SymbolType → Prop where
  | element {e : Element} {ts : List SymbolType} (h : e.Spelled ts) : Spelled (.element e) ts
  | not {e : SourceExpr .not} {ts : List SymbolType} {t : SymbolType} (word : t.kind = .kind .kNot)
      (h : Spelled e ts) : Spelled (.not e) (t :: ts)
  | paren {e : SourceExpr .or} {ts : List SymbolType} {o c : SymbolType}
      (opens : o.kind = .character '(') (closes : c.kind = .character ')') (h : Spelled e ts) :
      Spelled (.paren e) (o :: (ts ++ [c]))
  | ofNot {e : SourceExpr .not} {ts : List SymbolType} (h : Spelled e ts) : Spelled (.ofNot e) ts
  | and {l : SourceExpr .and} {r : SourceExpr .not} {ls rs : List SymbolType} {t : SymbolType}
      (word : t.kind = .kind .kAnd) (left : Spelled l ls) (right : Spelled r rs) :
      Spelled (.and l r) (ls ++ t :: rs)
  | ofAnd {e : SourceExpr .and} {ts : List SymbolType} (h : Spelled e ts) : Spelled (.ofAnd e) ts
  | or {l : SourceExpr .or} {r : SourceExpr .and} {ls rs : List SymbolType} {t : SymbolType}
      (word : t.kind = .kind .kOr) (left : Spelled l ls) (right : Spelled r rs) :
      Spelled (.or l r) (ls ++ t :: rs)

/-! ### Where an expression may stand -/

/-- A derivation by the grammar, with the value that its actions make. -/
abbrev ParsesAt (below : List Symbol) (next : Option Terminal) (X : Symbol) (v : Semantic)
    (ts : List SymbolType) : Prop :=
  Parses statementGrammar SymbolType.kind actions below next X v ts

/-- No rule can be complete at the top of the stack, nor a path go on there. -/
def Open (below : List Symbol) : Prop :=
  ∀ X ∈ below.head?, statementGrammar.endsRanked nonterminals X = false ∧ X ≠ chr '.'

theorem open_cons {X : Symbol} (below : List Symbol)
    (h : statementGrammar.endsRanked nonterminals X = false ∧ X ≠ chr '.') :
    Open (X :: below) := by
  intro Y hY
  obtain rfl := Option.some.inj hY
  exact h

theorem Open.admits {below : List Symbol} (h : Open below) (t : Terminal) :
    statementGrammar.Admits below t := by
  cases below with
  | nil => exact LR.admits_nil t
  | cons X below => exact LR.admits_over mem_nonterminals (h X rfl).1 below t

/-- What only a point below could hold back is taken. -/
theorem Open.admits_over {below : List Symbol} (h : Open below) {X : Symbol} {t : Terminal}
    (ht : statementGrammar.blockers nonterminals X t = [some (chr '.')]) :
    statementGrammar.Admits (X :: below) t := by
  refine LR.admits_of_blockers mem_nonterminals ?_
  rw [ht]
  intro Y hY
  rw [List.mem_singleton] at hY
  subst hY
  refine ⟨by simp, fun hhead => ?_⟩
  exact (h _ hhead.symm).2 rfl

theorem precedence_le {t : Terminal} {n : Nat} (h : precedence t = some n) : n ≤ 5 := by
  unfold precedence at h
  split at h <;> simp_all <;> omega

/-- A rule of the highest precedence yields to nothing. -/
theorem yields_of_highest {rhs : List Symbol} (h : statementGrammar.rulePrec rhs = some 5)
    (t : Terminal) : statementGrammar.Yields rhs t := by
  intro rule token hrule htoken
  rw [h] at hrule
  obtain rfl := Option.some.inj hrule
  exact precedence_le htoken

section Rules

variable {A : Nonterminal} {below : List Symbol} {next : Option Terminal} {vs : List Semantic}
  {v : Semantic} {ts : List SymbolType}

theorem parses_plain (rhs : List Symbol) (rule : rhs ∈ productions A)
    (hprec : statementGrammar.rulePrec rhs = none)
    (h : ParsesAll statementGrammar SymbolType.kind actions below next rhs vs ts)
    (hv : ruleAction A vs = v) : ParsesAt below next (nt A) v ts :=
  hv ▸ Parses.plain rule hprec h

theorem parses_ranked (rhs : List Symbol) (rule : rhs ∈ productions A)
    (hyields : ∀ t ∈ next, statementGrammar.Yields rhs t)
    (h : ParsesAll statementGrammar SymbolType.kind actions below next rhs vs ts)
    (hv : ruleAction A vs = v) : ParsesAt below next (nt A) v ts :=
  hv ▸ Parses.node rule hyields h

/-- A rule of one token. -/
theorem parses_one {t : SymbolType} (k : TokenKind) (hkind : t.kind = .kind k)
    (rule : [tok k] ∈ productions A) (hprec : precedence (.kind k) = none)
    (hv : ruleAction A [.token t] = v) : ParsesAt below next (nt A) v [t] :=
  parses_plain [tok k] rule hprec (.token hkind hprec .nil) hv

end Rules

/-! ### Names, values and paths -/

theorem parses_string {t : SymbolType} {s : String} (h : Literal.stringValue t = some s)
    (below : List Symbol) (next : Option Terminal) :
    ParsesAt below next (nt .string) (.string s) [t] := by
  have hvalue : ruleAction .string [.token t] = .string s := by
    change ((Literal.stringValue t).map Semantic.string).getD .other = _
    rw [h]
    rfl
  unfold Literal.stringValue at h
  split at h
  · next hkind =>
      exact parses_one .tDquotedString hkind (by decide) rfl hvalue
  · next hkind =>
      exact parses_one .tUnquotedString hkind (by decide) rfl hvalue
  · cases h

namespace Literal

def Phrase.symbol : Phrase → Symbol
  | .leeRhs _ => nt .leeRhs
  | .leeRhsList _ => nt .leeRhsList
  | .mapElementList _ => nt .mapElementList

def Phrase.semantic : Phrase → Semantic
  | .leeRhs v => .value v
  | .leeRhsList vs => .values vs
  | .mapElementList es => .entries es

theorem Derives.parses {ts : List SymbolType} {phrase : Phrase} (h : Derives ts phrase) :
    ∀ (below : List Symbol) (next : Option Terminal), Open below →
      ParsesAt below next phrase.symbol phrase.semantic ts := by
  induction h with
  | @wholeNumber t kind =>
      intro below next _
      refine parses_one _ kind (by decide) rfl ?_
      change RuleAction.valueAction [.token t] = _
      simp only [RuleAction.valueAction, kind, Phrase.semantic]
  | @floatingPoint t kind =>
      intro below next _
      refine parses_one _ kind (by decide) rfl ?_
      change RuleAction.valueAction [.token t] = _
      simp only [RuleAction.valueAction, kind, Phrase.semantic]
  | @dquoted t kind =>
      intro below next _
      refine parses_one _ kind (by decide) rfl ?_
      change RuleAction.valueAction [.token t] = _
      simp only [RuleAction.valueAction, kind, Phrase.semantic]
  | @list o c ts vs opens elements closes ih =>
      intro below next hopen
      exact parses_ranked [chr '[', nt .leeRhsList, chr ']'] (by decide)
        (fun _ _ => yields_of_highest rfl _)
        (.admitted opens (hopen.admits _) (.cons (ih _ _ (open_cons _ (by decide)))
          (.admitted closes (LR.admits_over mem_nonterminals (by decide) _ _) .nil))) rfl
  | @true t kind =>
      intro below next _
      refine parses_one _ kind (by decide) rfl ?_
      change RuleAction.valueAction [.token t] = _
      simp only [RuleAction.valueAction, kind, Phrase.semantic]
  | @false t kind =>
      intro below next _
      refine parses_one _ kind (by decide) rfl ?_
      change RuleAction.valueAction [.token t] = _
      simp only [RuleAction.valueAction, kind, Phrase.semantic]
  | @map o c ts es opens elements closes ih =>
      intro below next _
      exact parses_plain [chr '{', nt .mapElementList, chr '}'] (by decide) rfl
        (.token opens rfl (.cons (ih _ _ (open_cons _ (by decide))) (.token closes rfl .nil))) rfl
  | @null t kind =>
      intro below next _
      refine parses_one _ kind (by decide) rfl ?_
      change RuleAction.valueAction [.token t] = _
      simp only [RuleAction.valueAction, kind, Phrase.semantic]
  | @emptyList o c opens closes =>
      intro below next hopen
      refine parses_ranked [chr '[', chr ']'] (by decide) (fun _ _ => yields_of_highest rfl _)
        (.admitted opens (hopen.admits _)
          (.admitted closes (LR.admits_over mem_nonterminals (by decide) _ _) .nil)) ?_
      change (if o.kind = .character '[' then Semantic.value (.L []) else .value (.M [])) = _
      rw [if_pos opens]
      rfl
  | @emptyMap o c opens closes =>
      intro below next _
      refine parses_plain [chr '{', chr '}'] (by decide) rfl
        (.token opens rfl (.token closes rfl .nil)) ?_
      change (if o.kind = .character '[' then Semantic.value (.L []) else .value (.M [])) = _
      rw [if_neg (by rw [opens]; decide)]
      rfl
  | @listOne ts v element ih =>
      intro below next hopen
      exact parses_plain [nt .leeRhs] (by decide) rfl (.last (ih below next hopen)) rfl
  | @listMore ts us s vs v front comma element ihfront ihelement =>
      intro below next hopen
      exact parses_plain [nt .leeRhsList, chr ',', nt .leeRhs] (by decide) rfl
        (.cons (ihfront _ _ hopen) (.token comma rfl
          (.last (ihelement _ _ (open_cons _ (by decide)))))) rfl
  | @mapOne ts k c key v name colon element ih =>
      intro below next _
      exact parses_plain [nt .string, chr ':', nt .leeRhs] (by decide) rfl
        (.sub (parses_string name) (.token colon rfl
          (.last (ih _ _ (open_cons _ (by decide)))))) rfl
  | @mapMore ts us s k c es key v front comma name colon element ihfront ihelement =>
      intro below next hopen
      exact parses_plain [nt .mapElementList, chr ',', nt .string, chr ':', nt .leeRhs]
        (by decide) rfl
        (.cons (ihfront _ _ hopen) (.token comma rfl (.sub (parses_string name)
          (.token colon rfl (.last (ihelement _ _ (open_cons _ (by decide)))))))) rfl

end Literal

theorem PathSpelled.parses {path : String} {ts : List SymbolType} (h : PathSpelled path ts)
    {below : List Symbol} (hopen : Open below) (next : Option Terminal) :
    ParsesAt below next (nt .leeLhs) (.string path) ts := by
  induction h generalizing next with
  | name name =>
      exact parses_plain [nt .string] (by decide) rfl (.last (parses_string name below next)) rfl
  | index front opens number closes ih =>
      exact parses_ranked [nt .leeLhs, chr '[', tok .tWholeNumber, chr ']'] (by decide)
        (fun _ _ => yields_of_highest rfl _)
        (.cons (ih _) (.admitted opens (hopen.admits_over (by decide)) (.token number rfl
          (.admitted closes (LR.admits_over mem_nonterminals (by decide) _ _) .nil)))) rfl
  | field front dot name ih =>
      have hname : ParsesAt (chr '.' :: nt .leeLhs :: below) next (nt .leeLhs) (.string _) [_] :=
        parses_plain [nt .string] (by decide) rfl (.last (parses_string name _ next)) rfl
      exact parses_ranked [nt .leeLhs, chr '.', nt .leeLhs] (by decide)
        (fun _ _ => yields_of_highest rfl _)
        (.cons (ih _) (.admitted dot (hopen.admits_over (by decide)) (.last hname))) rfl

/-! ### Elements -/

theorem parses_comparison {t : SymbolType} {op : ComparisonToken} (h : comparisonOf t = some op)
    (below : List Symbol) (next : Option Terminal) :
    ParsesAt below next (nt .comparisonOp) (.comparison op) [t] := by
  have hvalue : ruleAction .comparisonOp [.token t] = .comparison op := by
    change RuleAction.comparisonAction [.token t] = _
    unfold comparisonOf at h
    unfold RuleAction.comparisonAction
    split at h <;> cases h <;> rename_i hkind <;> simp only [hkind]
  unfold comparisonOf at h
  split at h <;> cases h <;> rename_i hkind <;> exact parses_one _ hkind (by decide) rfl hvalue

theorem parses_attributeType {t : SymbolType} {a : ScalarType} (h : attributeTypeOf t = some a)
    (below : List Symbol) (next : Option Terminal) :
    ParsesAt below next (nt .attributeType) (.attributeType a) [t] := by
  have hvalue : ruleAction .attributeType [.token t] = .attributeType a := by
    change RuleAction.attributeTypeAction [.token t] = _
    unfold attributeTypeOf at h
    unfold RuleAction.attributeTypeAction
    split at h <;> cases h <;> rename_i hkind <;> simp only [hkind]
  unfold attributeTypeOf at h
  split at h <;> cases h <;> rename_i hkind <;> exact parses_one _ hkind (by decide) rfl hvalue

/-- What comes behind an element binds no tighter than AND. -/
def Loose (next : Option Terminal) : Prop := ∀ t ∈ next, ∀ n, precedence t = some n → n ≤ 2

theorem Loose.yields {next : Option Terminal} (h : Loose next) {rhs : List Symbol} {m : Nat}
    (hrule : statementGrammar.rulePrec rhs = some m) (hm : 2 ≤ m) :
    ∀ t ∈ next, statementGrammar.Yields rhs t := by
  intro t ht rule token hrule' htoken
  rw [hrule] at hrule'
  obtain rfl := Option.some.inj hrule'
  exact Nat.le_trans (h t ht token htoken) hm

theorem Element.Spelled.parses {e : Element} {ts : List SymbolType} (h : e.Spelled ts)
    {below : List Symbol} (hopen : Open below) {next : Option Terminal} (hnext : Loose next) :
    ParsesAt below next (nt .logicalExpressionElement) (.condition e.build) ts := by
  cases h with
  | comparison path operator value =>
      exact parses_plain [nt .leeLhs, nt .comparisonOp, nt .leeRhs] (by decide) rfl
        (.cons (path.parses hopen _) (.cons (parses_comparison operator _ _)
          (.last (value.parses _ _ (open_cons _ (by decide)))))) rfl
  | isNull path words =>
      obtain ⟨hIs, hNull, -⟩ := words
      exact parses_plain [nt .leeLhs, tok .kIs, tok .kNull] (by decide) rfl
        (.cons (path.parses hopen _) (.token hIs rfl (.token hNull rfl .nil))) rfl
  | isNotNull path words =>
      obtain ⟨hIs, hNot, hNull, -⟩ := words
      exact parses_plain [nt .leeLhs, tok .kIs, tok .kNot, tok .kNull] (by decide) rfl
        (.cons (path.parses hopen _) (.token hIs rfl
          (.admitted hNot (LR.admits_over mem_nonterminals (by decide) _ _)
            (.token hNull rfl .nil)))) rfl
  | between path words low high =>
      obtain ⟨hBetween, hAnd, -⟩ := words
      have hbetween : statementGrammar.Admits (nt .leeRhs :: tok .kBetween :: nt .leeLhs :: below)
          (.kind .kAnd) := by
        refine LR.admits_of_blockers mem_nonterminals ?_
        rw [List.head?_cons]
        decide
      exact parses_ranked [nt .leeLhs, tok .kBetween, nt .leeRhs, tok .kAnd, nt .leeRhs]
        (by decide) (hnext.yields rfl (Nat.le_refl 2))
        (.cons (path.parses hopen _)
          (.admitted hBetween (hopen.admits_over (by decide))
            (.cons (low.parses _ _ (open_cons _ (by decide)))
              (.admitted hAnd hbetween (.last (high.parses _ _ (open_cons _ (by decide)))))))) rfl
  | isIn path words values =>
      obtain ⟨hIn, hOpens, hCloses, -⟩ := words
      exact parses_plain [nt .leeLhs, tok .kIn, chr '(', nt .leeRhsList, chr ')'] (by decide) rfl
        (.cons (path.parses hopen _) (.token hIn rfl (.token hOpens rfl
          (.cons (values.parses _ _ (open_cons _ (by decide))) (.token hCloses rfl .nil))))) rfl
  | attributeExists words path =>
      obtain ⟨hFunction, hOpens, hCloses, -⟩ := words
      refine parses_plain [tok .kAttributeExists, chr '(', nt .leeLhs, chr ')'] (by decide) rfl
        (.token hFunction rfl (.token hOpens rfl
          (.cons (path.parses (open_cons _ (by decide)) _) (.token hCloses rfl .nil)))) ?_
      change RuleAction.pathTest _ _ = _
      simp only [RuleAction.pathTest, hFunction]
  | attributeNotExists words path =>
      obtain ⟨hFunction, hOpens, hCloses, -⟩ := words
      refine parses_plain [tok .kAttributeNotExists, chr '(', nt .leeLhs, chr ')'] (by decide) rfl
        (.token hFunction rfl (.token hOpens rfl
          (.cons (path.parses (open_cons _ (by decide)) _) (.token hCloses rfl .nil)))) ?_
      change RuleAction.pathTest _ _ = _
      simp only [RuleAction.pathTest, hFunction]
  | attributeType words path type =>
      obtain ⟨hFunction, hOpens, hComma, hCloses, -⟩ := words
      exact parses_plain
        [tok .kAttributeType, chr '(', nt .leeLhs, chr ',', nt .attributeType, chr ')']
        (by decide) rfl
        (.token hFunction rfl (.token hOpens rfl
          (.cons (path.parses (open_cons _ (by decide)) _) (.token hComma rfl
            (.cons (parses_attributeType type _ _) (.token hCloses rfl .nil)))))) rfl
  | beginsWith words path operand =>
      obtain ⟨hFunction, hOpens, hComma, hCloses, -⟩ := words
      refine parses_plain [tok .kBeginsWith, chr '(', nt .leeLhs, chr ',', nt .string, chr ')']
        (by decide) rfl
        (.token hFunction rfl (.token hOpens rfl
          (.cons (path.parses (open_cons _ (by decide)) _) (.token hComma rfl
            (.cons (parses_string operand _ _) (.token hCloses rfl .nil)))))) ?_
      change RuleAction.stringTest _ _ _ = _
      simp only [RuleAction.stringTest, hFunction]
  | contains words path string =>
      obtain ⟨hFunction, hOpens, hComma, hCloses, -⟩ := words
      refine parses_plain [tok .kContains, chr '(', nt .leeLhs, chr ',', nt .string, chr ')']
        (by decide) rfl
        (.token hFunction rfl (.token hOpens rfl
          (.cons (path.parses (open_cons _ (by decide)) _) (.token hComma rfl
            (.cons (parses_string string _ _) (.token hCloses rfl .nil)))))) ?_
      change RuleAction.stringTest _ _ _ = _
      simp only [RuleAction.stringTest, hFunction]
  | size words path operator value =>
      obtain ⟨hFunction, hOpens, hCloses, -⟩ := words
      exact parses_plain
        [tok .kSize, chr '(', nt .leeLhs, chr ')', nt .comparisonOp, nt .leeRhs] (by decide) rfl
        (.token hFunction rfl (.token hOpens rfl
          (.cons (path.parses (open_cons _ (by decide)) _) (.token hCloses rfl
            (.cons (parses_comparison operator _ _)
              (.last (value.parses _ _ (open_cons _ (by decide))))))))) rfl

/-! ### Expressions -/

/-- The operators that bind what stands over them before an operator of the
level can. -/
def binders : Prec → List Symbol
  | .not => []
  | .and => [tok .kNot, tok .kAnd]
  | .or => [tok .kNot, tok .kAnd, tok .kOr]

/-- An expression of the level may begin over these symbols. -/
def Ready (p : Prec) (below : List Symbol) : Prop :=
  Open below ∧ ∀ X ∈ below.head?, X ∉ binders p

/-- An expression of the level is complete before this token. -/
def EndsAt : Prec → Option Terminal → Prop
  | .not, next | .and, next => Loose next
  | .or, next => ∀ t ∈ next, ∀ n, precedence t = some n → n ≤ 1

theorem EndsAt.loose {p : Prec} {next : Option Terminal} (h : EndsAt p next) : Loose next := by
  cases p with
  | not => exact h
  | and => exact h
  | or => exact fun t ht n hn => Nat.le_trans (h t ht n hn) (by decide)

theorem ready_cons {p : Prec} {X : Symbol} (below : List Symbol)
    (h : (statementGrammar.endsRanked nonterminals X = false ∧ X ≠ chr '.') ∧ X ∉ binders p) :
    Ready p (X :: below) :=
  ⟨open_cons below h.1, fun _ hX => Option.some.inj hX ▸ h.2⟩

/-- Over an expression of its level an operator is taken. -/
theorem Ready.admits {p : Prec} {below : List Symbol} (h : Ready p below) {t : Terminal}
    (ht : ∀ Y ∈ statementGrammar.blockers nonterminals (nt .logicalExpression) t,
      ∃ X ∈ binders p, Y = some X) :
    statementGrammar.Admits (nt .logicalExpression :: below) t := by
  refine LR.admits_of_blockers mem_nonterminals fun Y hY => ?_
  obtain ⟨X, hX, rfl⟩ := ht Y hY
  exact ⟨by simp, fun hhead => h.2 X hhead.symm hX⟩

/-- An expression, spelled in tokens, is what the parser makes of them. -/
theorem SourceExpr.Spelled.parses {p : Prec} {e : SourceExpr p} {ts : List SymbolType}
    (h : e.Spelled ts) :
    ∀ (below : List Symbol) (next : Option Terminal), Ready p below → EndsAt p next →
      ParsesAt below next (nt .logicalExpression) (.condition e.build) ts := by
  induction h with
  | element h =>
      intro below next hready hends
      exact parses_plain [nt .logicalExpressionElement] (by decide) rfl
        (.last (h.parses hready.1 hends)) rfl
  | not word _ ih =>
      intro below next hready hends
      exact parses_ranked [tok .kNot, nt .logicalExpression] (by decide)
        (Loose.yields hends (m := 3) rfl (by decide))
        (.admitted word (hready.1.admits _)
          (.last (ih _ _ (ready_cons _ (by decide)) hends))) rfl
  | @paren e ts o c opens closes _ ih =>
      intro below next hready hends
      have hinner : EndsAt .or (some c.kind) := by
        intro t ht n hn
        cases ht
        rw [closes] at hn
        cases hn
      exact parses_plain [chr '(', nt .logicalExpression, chr ')'] (by decide) rfl
        (.token opens rfl (.cons (ih _ _ (ready_cons _ (by decide)) hinner)
          (.token closes rfl .nil))) rfl
  | ofNot _ ih =>
      intro below next hready hends
      exact ih _ _ ⟨hready.1, fun X hX => List.not_mem_nil⟩ hends
  | @and l r ls rs t word _ _ ihl ihr =>
      intro below next hready hends
      have hleft : EndsAt .and (some t.kind) := by
        intro u hu n hn
        cases hu
        rw [word] at hn
        cases hn
        decide
      refine parses_ranked [nt .logicalExpression, tok .kAnd, nt .logicalExpression] (by decide)
        (Loose.yields hends (m := 2) rfl (by decide))
        (.cons (ihl _ _ hready hleft) (.admitted word (hready.admits (by decide))
          (.last (ihr _ _ (ready_cons _ (by decide)) hends)))) ?_
      change Semantic.condition (if t.kind = .kind .kAnd then _ else _) = _
      rw [if_pos word]
      rfl
  | ofAnd _ ih =>
      intro below next hready hends
      exact ih _ _ ⟨hready.1, fun X hX hmem => hready.2 X hX (by
        simp only [binders, List.mem_cons, List.not_mem_nil, or_false] at hmem ⊢
        exact Or.imp_right .inl hmem)⟩ hends.loose
  | @or l r ls rs t word _ _ ihl ihr =>
      intro below next hready hends
      have hleft : EndsAt .or (some t.kind) := by
        intro u hu n hn
        cases hu
        rw [word] at hn
        cases hn
        decide
      have hyields : ∀ u ∈ next, statementGrammar.Yields
          [nt .logicalExpression, tok .kOr, nt .logicalExpression] u := by
        intro u hu rule token hrule htoken
        cases hrule
        exact hends u hu token htoken
      refine parses_ranked [nt .logicalExpression, tok .kOr, nt .logicalExpression] (by decide)
        hyields
        (.cons (ihl _ _ hready hleft) (.admitted word (hready.admits (by decide))
          (.last (ihr _ _ (ready_cons _ (by decide)) hends.loose)))) ?_
      change Semantic.condition (if t.kind = .kind .kAnd then _ else _) = _
      rw [if_neg (by rw [word]; decide)]
      rfl

end DdbShell
