import DdbShell.Parser.Obedience
import DdbShell.Parser.WhereParses

/-!
Scripts of SELECT, INSERT, REPLACE, UPDATE, UPSERT and DELETE, spelled in
tokens: `parse_batch` returns the commands they spell, in their order.
-/

namespace DdbShell

open Infix (Prec)
open LR (Tree)

/-! ### Spellings -/

/-- One or more of them, with commas between them. -/
inductive ListSpelled {α : Type} (S : α → List SymbolType → Prop) :
    List α → List SymbolType → Prop where
  | one {a : α} {ts : List SymbolType} (h : S a ts) : ListSpelled S [a] ts
  | more {as : List α} {a : α} {ts us : List SymbolType} {s : SymbolType}
      (front : ListSpelled S as ts) (comma : s.kind = .character ',') (h : S a us) :
      ListSpelled S (as ++ [a]) (ts ++ s :: us)

inductive NameSpelled : String → List SymbolType → Prop where
  | mk {t : SymbolType} {s : String} (name : Literal.stringValue t = some s) : NameSpelled s [t]

inductive TableReference.Spelled : TableReference → List SymbolType → Prop where
  | table {t : SymbolType} {table : String} (name : Literal.stringValue t = some table) :
      Spelled ⟨table, none⟩ [t]
  | index {t d i : SymbolType} {table index : String} (name : Literal.stringValue t = some table)
      (dot : d.kind = .character '.') (indexName : Literal.stringValue i = some index) :
      Spelled ⟨table, some index⟩ [t, d, i]

inductive ClauseSpelled : Option Where → List SymbolType → Prop where
  | absent : ClauseSpelled none []
  | present {e : SourceExpr .or} {t : SymbolType} {ts : List SymbolType}
      (word : t.kind = .kind .kWhere) (h : e.Spelled ts) : ClauseSpelled (some ⟨e.build⟩) (t :: ts)

/-- What RETURN VALUES says with these two words. -/
def returnOf : TokenKind → TokenKind → Option ReturnValue
  | .kAll, .kOld => some .allOld
  | .kAll, .kNew => some .allNew
  | .kUpdated, .kOld => some .updatedOld
  | .kUpdated, .kNew => some .updatedNew
  | _, _ => none

inductive ReturnSpelled : ReturnValue → List SymbolType → Prop where
  | absent : ReturnSpelled .none []
  | present {r v s a : SymbolType} {scope age : TokenKind} {value : ReturnValue}
      (words : Kinds [r, v, s, a] [.kind .kReturn, .kind .kValues, .kind scope, .kind age])
      (meaning : returnOf scope age = some value) : ReturnSpelled value [r, v, s, a]

/-- `use_lhs`, as the element of SET that its action begins. -/
inductive UseSpelled : UpdateSetElement → List SymbolType → Prop where
  | ofAttribute {t : SymbolType} (name : t.kind = .kind .tUnquotedString) :
      UseSpelled { lhs := "", rhsAttribute := t.lexeme } [t]
  | ifNotExists {f o s c : SymbolType} {path : String} {ps vs : List SymbolType} {v : Value}
      (words : Kinds [f, o, s, c]
        [.kind .kIfNotExists, .character '(', .character ',', .character ')'])
      (target : PathSpelled path ps) (value : Literal.LeeRhs vs v) :
      UseSpelled { lhs := "", ifNotExistsLhs := path, ifNotExistsValue := some v }
        (f :: o :: (ps ++ s :: (vs ++ [c])))

inductive UpdateSetElement.Spelled : UpdateSetElement → List SymbolType → Prop where
  | value {lhs : String} {ps vs : List SymbolType} {t : SymbolType} {v : Value}
      (path : PathSpelled lhs ps) (equal : t.kind = .kind .tEqual) (value : Literal.LeeRhs vs v) :
      Spelled { lhs := lhs, rhsValue := some v } (ps ++ t :: vs)
  | use {lhs : String} {ps us : List SymbolType} {t : SymbolType} {element : UpdateSetElement}
      (path : PathSpelled lhs ps) (equal : t.kind = .kind .tEqual) (use : UseSpelled element us) :
      Spelled { element with lhs := lhs } (ps ++ t :: us)
  | plus {lhs : String} {ps us vs : List SymbolType} {t o : SymbolType}
      {element : UpdateSetElement} {v : Value} (path : PathSpelled lhs ps)
      (equal : t.kind = .kind .tEqual) (use : UseSpelled element us)
      (operator : o.kind = .character '+') (value : Literal.LeeRhs vs v) :
      Spelled { element with lhs := lhs, op := "+", rhsValue := some v }
        (ps ++ t :: (us ++ o :: vs))
  | minus {lhs : String} {ps us vs : List SymbolType} {t o : SymbolType}
      {element : UpdateSetElement} {v : Value} (path : PathSpelled lhs ps)
      (equal : t.kind = .kind .tEqual) (use : UseSpelled element us)
      (operator : o.kind = .character '-') (value : Literal.LeeRhs vs v) :
      Spelled { element with lhs := lhs, op := "-", rhsValue := some v }
        (ps ++ t :: (us ++ o :: vs))

/-- `insert_value`: no empty list and no empty map. -/
inductive InsertSpelled : Value → List SymbolType → Prop where
  | wholeNumber {t : SymbolType} (kind : t.kind = .kind .tWholeNumber) :
      InsertSpelled (.N t.lexeme) [t]
  | floatingPoint {t : SymbolType} (kind : t.kind = .kind .tFloatingPointNumber) :
      InsertSpelled (.N t.lexeme) [t]
  | dquoted {t : SymbolType} (kind : t.kind = .kind .tDquotedString) :
      InsertSpelled (.S (unquote t.lexeme)) [t]
  | list {o c : SymbolType} {ts : List SymbolType} {vs : List Value}
      (opens : o.kind = .character '[') (elements : Literal.Derives ts (.leeRhsList vs))
      (closes : c.kind = .character ']') : InsertSpelled (.L vs) (o :: (ts ++ [c]))
  | true {t : SymbolType} (kind : t.kind = .kind .kTrue) : InsertSpelled (.BOOL true) [t]
  | false {t : SymbolType} (kind : t.kind = .kind .kFalse) : InsertSpelled (.BOOL false) [t]
  | null {t : SymbolType} (kind : t.kind = .kind .kNull) : InsertSpelled .NUL [t]
  | map {o c : SymbolType} {ts : List SymbolType} {es : List (String × Value)}
      (opens : o.kind = .character '{') (elements : Literal.Derives ts (.mapElementList es))
      (closes : c.kind = .character '}') : InsertSpelled (.M es) (o :: (ts ++ [c]))

inductive RowSpelled : List Value → List SymbolType → Prop where
  | mk {row : List Value} {ts : List SymbolType} {o c : SymbolType}
      (words : Kinds [o, c] [.character '(', .character ')'])
      (values : ListSpelled InsertSpelled row ts) : RowSpelled row (o :: (ts ++ [c]))

inductive ProjectionSpelled : List String → List SymbolType → Prop where
  | all {t : SymbolType} (star : t.kind = .character '*') : ProjectionSpelled [] [t]
  | paths {names : List String} {ts : List SymbolType} (h : ListSpelled PathSpelled names ts) :
      ProjectionSpelled names ts

inductive ConsistentSpelled : Bool → List SymbolType → Prop where
  | absent : ConsistentSpelled false []
  | present {t : SymbolType} (word : t.kind = .kind .kConsistent) : ConsistentSpelled true [t]

/-- The statements that read and write items, with no rate limit. -/
inductive Explainable.Spelled : Explainable → List SymbolType → Prop where
  | select {s f : SymbolType} {consistent : Bool} {projection : List String}
      {reference : TableReference} {condition : Option Where} {cs ps rs ws : List SymbolType}
      (words : Kinds [s, f] [.kind .kSelect, .kind .kFrom])
      (reads : ConsistentSpelled consistent cs) (paths : ProjectionSpelled projection ps)
      (table : reference.Spelled rs) (clause : ClauseSpelled condition ws) :
      Spelled (.select { consistent := consistent, projection := projection
                         table := reference.table, index := reference.index
                         condition := condition })
        (s :: (cs ++ (ps ++ f :: (rs ++ ws))))
  | insert {i n o c v t : SymbolType} {table : String} {columns : List String}
      {rows : List (List Value)} {ns vs : List SymbolType}
      (words : Kinds [i, n, o, c, v]
        [.kind .kInsert, .kind .kInto, .character '(', .character ')', .kind .kValues])
      (into : Literal.stringValue t = some table) (names : ListSpelled NameSpelled columns ns)
      (values : ListSpelled RowSpelled rows vs) :
      Spelled (.insert { tableName := table, columns := columns, rows := rows })
        (i :: n :: t :: o :: (ns ++ c :: v :: vs))
  | replace {i n o c v t : SymbolType} {table : String} {columns : List String}
      {rows : List (List Value)} {value : ReturnValue} {ns vs us : List SymbolType}
      (words : Kinds [i, n, o, c, v]
        [.kind .kReplace, .kind .kInto, .character '(', .character ')', .kind .kValues])
      (into : Literal.stringValue t = some table) (names : ListSpelled NameSpelled columns ns)
      (values : ListSpelled RowSpelled rows vs) (returns : ReturnSpelled value us) :
      Spelled (.insert { tableName := table, columns := columns, rows := rows, insert := false
                         returnValue := value })
        (i :: n :: t :: o :: (ns ++ c :: v :: (vs ++ us)))
  | set {u w : SymbolType} {upsert : Bool} {reference : TableReference}
      {elements : List UpdateSetElement} {condition : Option Where} {value : ReturnValue}
      {rs es ws us : List SymbolType}
      (words : Kinds [u, w] [.kind (if upsert then .kUpsert else .kUpdate), .kind .kSet])
      (table : reference.Spelled rs) (sets : ListSpelled UpdateSetElement.Spelled elements es)
      (clause : ClauseSpelled condition ws) (returns : ReturnSpelled value us) :
      Spelled (.update { table := reference.table, index := reference.index
                         mutation := .set elements, condition := condition, upsert := upsert
                         returnValue := value })
        (u :: (rs ++ w :: (es ++ (ws ++ us))))
  | remove {u w : SymbolType} {reference : TableReference} {paths : List String}
      {condition : Option Where} {value : ReturnValue} {rs ps ws us : List SymbolType}
      (words : Kinds [u, w] [.kind .kUpdate, .kind .kRemove]) (table : reference.Spelled rs)
      (removes : ListSpelled PathSpelled paths ps) (clause : ClauseSpelled condition ws)
      (returns : ReturnSpelled value us) :
      Spelled (.update { table := reference.table, index := reference.index
                         mutation := .remove paths, condition := condition
                         returnValue := value })
        (u :: (rs ++ w :: (ps ++ (ws ++ us))))
  | delete {d f : SymbolType} {reference : TableReference} {condition : Option Where}
      {value : ReturnValue} {rs ws us : List SymbolType}
      (words : Kinds [d, f] [.kind .kDelete, .kind .kFrom]) (table : reference.Spelled rs)
      (clause : ClauseSpelled condition ws) (returns : ReturnSpelled value us) :
      Spelled (.delete { table := reference.table, index := reference.index
                         condition := condition, returnValue := value })
        (d :: f :: (rs ++ (ws ++ us)))

/-- Statements with their `;`, which the last one may do without. -/
inductive ScriptSpelled : List Explainable → List SymbolType → Prop where
  | nil : ScriptSpelled [] []
  | last {command : Explainable} {ts : List SymbolType} (h : command.Spelled ts) :
      ScriptSpelled [command] ts
  | cons {command : Explainable} {commands : List Explainable} {ts us : List SymbolType}
      {s : SymbolType} (h : command.Spelled ts) (semicolon : s.kind = .kind .semicolon)
      (rest : ScriptSpelled commands us) : ScriptSpelled (command :: commands) (ts ++ s :: us)

/-! ### Parts of statements -/

/-- An alternative that is empty. -/
theorem absent_anywhere {A : Nonterminal} {v : Semantic} (rule : [] ∈ productions A)
    (hv : ruleAction A [] = v) :
    LR.ParsesAnywhere statementGrammar SymbolType.kind actions (nt A) v [] :=
  fun _ _ => parses_plain [] rule rfl .nil hv

theorem ListSpelled.parses {α : Type} {S : α → List SymbolType → Prop} {A B : Nonterminal}
    {w : α → Semantic} {list : List α → Semantic} (hone : [nt B] ∈ productions A)
    (hmore : [nt A, chr ',', nt B] ∈ productions A)
    (hfirst : ∀ a, ruleAction A [w a] = list [a])
    (hnext : ∀ as a s, ruleAction A [list as, .token s, w a] = list (as ++ [a]))
    (helement : ∀ a ts, S a ts → ∀ below next, Open below →
      ParsesAt below next (nt B) (w a) ts)
    {as : List α} {ts : List SymbolType} (h : ListSpelled S as ts) {below : List Symbol}
    (hopen : Open below) (next : Option Terminal) :
    ParsesAt below next (nt A) (list as) ts := by
  induction h generalizing next with
  | one h => exact parses_plain [nt B] hone rfl (.last (helement _ _ h below next hopen)) (hfirst _)
  | more front comma h ih =>
      exact parses_plain [nt A, chr ',', nt B] hmore rfl
        (.cons (ih _) (.token comma rfl
          (.last (helement _ _ h _ next (open_cons _ (by decide)))))) (hnext _ _ _)

theorem parses_tableName {t : SymbolType} {s : String} (h : Literal.stringValue t = some s)
    (below : List Symbol) (next : Option Terminal) :
    ParsesAt below next (nt .tableName) (.string s) [t] :=
  parses_plain [nt .string] (by decide) rfl (.last (parses_string h below next)) rfl

theorem TableReference.Spelled.parses {reference : TableReference} {ts : List SymbolType}
    (h : reference.Spelled ts) {below : List Symbol} (hopen : Open below)
    (next : Option Terminal) :
    ParsesAt below next (nt .tableOptionalIndexName) (.tableReference reference) ts := by
  cases h with
  | table name =>
      exact parses_plain [nt .tableName] (by decide) rfl (.last (parses_tableName name _ _)) rfl
  | index name dot indexName =>
      exact parses_ranked [nt .tableName, chr '.', nt .tableName] (by decide)
        (fun _ _ => yields_of_highest rfl _)
        (.cons (parses_tableName name _ _) (.admitted dot (hopen.admits_over (by decide))
          (.last (parses_tableName indexName _ _)))) rfl

/-- No rule has to be weighed against what comes next. -/
def Unranked (next : Option Terminal) : Prop := ∀ t ∈ next, precedence t = none

theorem Unranked.endsAt {next : Option Terminal} (h : Unranked next) (p : Prec) :
    EndsAt p next := by
  have hall : ∀ t ∈ next, ∀ n, precedence t = some n → n ≤ 1 := by
    intro t ht n hn
    rw [h t ht] at hn
    cases hn
  cases p with
  | not => exact fun t ht n hn => Nat.le_trans (hall t ht n hn) (by decide)
  | and => exact fun t ht n hn => Nat.le_trans (hall t ht n hn) (by decide)
  | or => exact hall

theorem ClauseSpelled.parses {condition : Option Where} {ts : List SymbolType}
    (h : ClauseSpelled condition ts) (below : List Symbol) {next : Option Terminal}
    (hnext : Unranked next) :
    ParsesAt below next (nt .optionalWhereClause) (.optionalClause condition) ts := by
  cases h with
  | absent => exact absent_anywhere (by decide) rfl below next
  | present word h =>
      have hclause : ParsesAt below next (nt .whereClause) (.clause ⟨_⟩) _ :=
        parses_plain [tok .kWhere, nt .logicalExpression] (by decide) rfl
          (.token word rfl (.last (h.parses _ _ (ready_cons _ (by decide)) (hnext.endsAt .or)))) rfl
      exact parses_plain [nt .whereClause] (by decide) rfl (.last hclause) rfl

theorem ReturnSpelled.parses {value : ReturnValue} {ts : List SymbolType}
    (h : ReturnSpelled value ts) (below : List Symbol) (next : Option Terminal) :
    ParsesAt below next (nt .optionalReturnValue) (.returnValue value) ts := by
  cases h with
  | absent => exact absent_anywhere (by decide) rfl below next
  | @present r v s a _ _ _ words meaning =>
      obtain ⟨hReturn, hValues, hScope, hAge, -⟩ := words
      unfold returnOf at meaning
      split at meaning <;> cases meaning
      all_goals
        refine parses_plain [tok .kReturn, tok .kValues, tok _, tok _] (by decide) rfl
          (.token hReturn rfl (.token hValues rfl (.token hScope rfl (.token hAge rfl .nil)))) ?_
        change RuleAction.returnValueAction [.token r, .token v, .token s, .token a] = _
        simp only [RuleAction.returnValueAction, hScope, hAge]

theorem UseSpelled.parses {element : UpdateSetElement} {ts : List SymbolType}
    (h : UseSpelled element ts) (below : List Symbol) (next : Option Terminal) :
    ParsesAt below next (nt .useLhs) (.setElement element) ts := by
  cases h with
  | ofAttribute name => exact parses_one .tUnquotedString name (by decide) rfl rfl
  | ifNotExists words target value =>
      obtain ⟨hFunction, hOpens, hComma, hCloses, -⟩ := words
      exact parses_plain [tok .kIfNotExists, chr '(', nt .leeLhs, chr ',', nt .leeRhs, chr ')']
        (by decide) rfl
        (.token hFunction rfl (.token hOpens rfl
          (.cons (target.parses (open_cons _ (by decide)) _) (.token hComma rfl
            (.cons (value.parses _ _ (open_cons _ (by decide))) (.token hCloses rfl .nil)))))) rfl

theorem UpdateSetElement.Spelled.parses {element : UpdateSetElement} {ts : List SymbolType}
    (h : element.Spelled ts) (below : List Symbol) (next : Option Terminal) (hopen : Open below) :
    ParsesAt below next (nt .setElement) (.setElement element) ts := by
  cases h with
  | value path equal value =>
      exact parses_plain [nt .leeLhs, tok .tEqual, nt .leeRhs] (by decide) rfl
        (.cons (path.parses hopen _) (.token equal rfl
          (.last (value.parses _ _ (open_cons _ (by decide)))))) rfl
  | use path equal use =>
      exact parses_plain [nt .leeLhs, tok .tEqual, nt .useLhs] (by decide) rfl
        (.cons (path.parses hopen _) (.token equal rfl (.last (use.parses _ _)))) rfl
  | @plus lhs _ _ _ t o element v path equal use operator value =>
      refine parses_plain [nt .leeLhs, tok .tEqual, nt .useLhs, chr '+', nt .leeRhs] (by decide) rfl
        (.cons (path.parses hopen _) (.token equal rfl (.cons (use.parses _ _)
          (.token operator rfl (.last (value.parses _ _ (open_cons _ (by decide)))))))) ?_
      change RuleAction.setElementAction [.string lhs, .token t, .setElement element, .token o,
        .value v] = _
      simp only [RuleAction.setElementAction, operator, if_true]
  | @minus lhs _ _ _ t o element v path equal use operator value =>
      refine parses_plain [nt .leeLhs, tok .tEqual, nt .useLhs, chr '-', nt .leeRhs] (by decide) rfl
        (.cons (path.parses hopen _) (.token equal rfl (.cons (use.parses _ _)
          (.token operator rfl (.last (value.parses _ _ (open_cons _ (by decide)))))))) ?_
      change RuleAction.setElementAction [.string lhs, .token t, .setElement element, .token o,
        .value v] = _
      simp [RuleAction.setElementAction, operator]

theorem InsertSpelled.parses {v : Value} {ts : List SymbolType} (h : InsertSpelled v ts)
    (below : List Symbol) (next : Option Terminal) (hopen : Open below) :
    ParsesAt below next (nt .insertValue) (.value v) ts := by
  cases h with
  | @wholeNumber t kind =>
      refine parses_one _ kind (by decide) rfl ?_
      change RuleAction.valueAction [.token t] = _
      simp only [RuleAction.valueAction, kind]
  | @floatingPoint t kind =>
      refine parses_one _ kind (by decide) rfl ?_
      change RuleAction.valueAction [.token t] = _
      simp only [RuleAction.valueAction, kind]
  | @dquoted t kind =>
      refine parses_one _ kind (by decide) rfl ?_
      change RuleAction.valueAction [.token t] = _
      simp only [RuleAction.valueAction, kind]
  | list opens elements closes =>
      exact parses_ranked [chr '[', nt .leeRhsList, chr ']'] (by decide)
        (fun _ _ => yields_of_highest rfl _)
        (.admitted opens (hopen.admits _) (.cons (elements.parses _ _ (open_cons _ (by decide)))
          (.admitted closes (LR.admits_over mem_nonterminals (by decide) _ _) .nil))) rfl
  | @true t kind =>
      refine parses_one _ kind (by decide) rfl ?_
      change RuleAction.valueAction [.token t] = _
      simp only [RuleAction.valueAction, kind]
  | @false t kind =>
      refine parses_one _ kind (by decide) rfl ?_
      change RuleAction.valueAction [.token t] = _
      simp only [RuleAction.valueAction, kind]
  | @null t kind =>
      refine parses_one _ kind (by decide) rfl ?_
      change RuleAction.valueAction [.token t] = _
      simp only [RuleAction.valueAction, kind]
  | map opens elements closes =>
      exact parses_plain [chr '{', nt .mapElementList, chr '}'] (by decide) rfl
        (.token opens rfl
          (.cons (elements.parses _ _ (open_cons _ (by decide))) (.token closes rfl .nil))) rfl

theorem parses_rows {rows : List (List Value)} {ts : List SymbolType}
    (h : ListSpelled RowSpelled rows ts) (below : List Symbol) (next : Option Terminal) :
    ParsesAt below next (nt .valueList) (.rows rows) ts := by
  have hvalues : ∀ {row : List Value} {us : List SymbolType}, ListSpelled InsertSpelled row us →
      ∀ below next, Open below → ParsesAt below next (nt .insertValues) (.values row) us :=
    fun hrow _ next hopen => hrow.parses (B := .insertValue) (w := .value) (by decide)
      (by decide) (fun _ => rfl) (fun _ _ _ => rfl) (fun _ _ h => h.parses) hopen next
  induction h generalizing next with
  | one h =>
      obtain ⟨words, values⟩ := h
      obtain ⟨hOpens, hCloses, -⟩ := words
      exact parses_plain [chr '(', nt .insertValues, chr ')'] (by decide) rfl
        (.token hOpens rfl
          (.cons (hvalues values _ _ (open_cons _ (by decide))) (.token hCloses rfl .nil))) rfl
  | more front comma h ih =>
      obtain ⟨words, values⟩ := h
      obtain ⟨hOpens, hCloses, -⟩ := words
      exact parses_plain [nt .valueList, chr ',', chr '(', nt .insertValues, chr ')'] (by decide)
        rfl
        (.cons (ih _) (.token comma rfl (.token hOpens rfl
          (.cons (hvalues values _ _ (open_cons _ (by decide))) (.token hCloses rfl .nil))))) rfl

/-! ### Statements -/

theorem ReturnSpelled.unranked {value : ReturnValue} {ts : List SymbolType}
    (h : ReturnSpelled value ts) {next : Option Terminal} (hnext : Unranked next) :
    Unranked (LR.firstOf SymbolType.kind ts next) := by
  cases h with
  | absent => exact hnext
  | present words =>
      intro t ht
      obtain rfl := Option.some.inj ht
      rw [words.1]
      rfl

theorem ConsistentSpelled.parses {consistent : Bool} {ts : List SymbolType}
    (h : ConsistentSpelled consistent ts) (below : List Symbol) (next : Option Terminal) :
    ParsesAt below next (nt .optionalConsistent) (.flag consistent) ts := by
  cases h with
  | absent => exact absent_anywhere (by decide) rfl below next
  | present word => exact parses_one .kConsistent word (by decide) rfl rfl

theorem ProjectionSpelled.parses {projection : List String} {ts : List SymbolType}
    (h : ProjectionSpelled projection ts) {below : List Symbol} (hopen : Open below)
    (next : Option Terminal) :
    ParsesAt below next (nt .selectProjection) (.names projection) ts := by
  cases h with
  | all star => exact parses_plain [chr '*'] (by decide) rfl (.token star rfl .nil) rfl
  | paths h =>
      have hattribute : ∀ path us, PathSpelled path us → ∀ below next, Open below →
          ParsesAt below next (nt .selectAttribute) (.string path) us :=
        fun path us hpath below next hopen =>
          parses_plain [nt .leeLhs] (by decide) rfl (.last (hpath.parses hopen next)) rfl
      exact parses_plain [nt .selectAttributeList] (by decide) rfl
        (.last (h.parses (B := .selectAttribute) (w := .string) (by decide) (by decide)
          (fun _ => rfl) (fun _ _ _ => rfl) hattribute hopen next)) rfl

section Statements

variable {next : Option Terminal} {v : Semantic} {ts : List SymbolType}

theorem parses_write {A : Nonterminal} (rule : [nt A] ∈ productions .writeCommand)
    (hprec : statementGrammar.rulePrec [nt A] = none) (h : ParsesAt [] next (nt A) v ts) :
    ParsesAt [] next (nt .dmlCommand) v ts :=
  parses_plain [nt .writeCommand] (by decide) rfl
    (.last (parses_plain [nt A] rule hprec (.last h) rfl)) rfl

theorem parses_get (h : ParsesAt [] next (nt .selectCommand) v ts) :
    ParsesAt [] next (nt .dmlCommand) v ts :=
  parses_plain [nt .getCommand] (by decide) rfl
    (.last (parses_plain [nt .selectCommand] (by decide) rfl (.last h) rfl)) rfl

theorem parses_sets {elements : List UpdateSetElement}
    (h : ListSpelled UpdateSetElement.Spelled elements ts) {below : List Symbol}
    (hopen : Open below) (next : Option Terminal) :
    ParsesAt below next (nt .setList) (.setElements elements) ts :=
  h.parses (B := .setElement) (w := .setElement) (by decide) (by decide) (fun _ => rfl)
    (fun _ _ _ => rfl) (fun _ _ h => h.parses) hopen next

theorem parses_removes {paths : List String} (h : ListSpelled PathSpelled paths ts)
    {below : List Symbol} (hopen : Open below) (next : Option Terminal) :
    ParsesAt below next (nt .removeList) (.names paths) ts :=
  h.parses (B := .leeLhs) (w := .string) (by decide) (by decide) (fun _ => rfl)
    (fun _ _ _ => rfl) (fun _ _ h _ next hopen => h.parses hopen next) hopen next

theorem parses_columns {columns : List String} (h : ListSpelled NameSpelled columns ts)
    {below : List Symbol} (hopen : Open below) (next : Option Terminal) :
    ParsesAt below next (nt .insertColumnList) (.names columns) ts := by
  refine h.parses (B := .insertColumn) (w := .string) (by decide) (by decide)
    (fun _ => rfl) (fun _ _ _ => rfl) ?_ hopen next
  rintro column us ⟨name⟩ below next -
  exact parses_plain [nt .string] (by decide) rfl (.last (parses_string name below next)) rfl

theorem Explainable.Spelled.parses {command : Explainable} (h : command.Spelled ts)
    (hnext : Unranked next) :
    ParsesAt [] next (nt .dmlCommand) (.command (.explainable command)) ts := by
  have hlimit := absent_anywhere (A := .optionalRatelimit) (v := .optionalRateLimit none)
    (by decide) rfl
  cases h with
  | select words reads paths table clause =>
      obtain ⟨hSelect, hFrom, -⟩ := words
      exact parses_get
        (parses_plain [tok .kSelect, nt .optionalConsistent, nt .selectProjection, tok .kFrom,
            nt .tableOptionalIndexName, nt .optionalWhereClause, nt .optionalVectorSearchClause,
            nt .optionalReturnConsumedCapacity, nt .optionalRatelimit] (by decide) rfl
          (.token hSelect rfl (.cons (reads.parses _ _)
            (.cons (paths.parses (open_cons _ (by decide)) _) (.token hFrom rfl
              (.cons (table.parses (open_cons _ (by decide)) _)
                (.filled (clause.parses _ hnext)
                  (.empty (absent_anywhere (v := .search none none) (by decide) rfl)
                    (.empty (absent_anywhere (v := .consumedCapacity .none) (by decide) rfl)
                      (.empty hlimit .nil))))))))) rfl)
  | insert words into names values =>
      obtain ⟨hInsert, hInto, hOpens, hCloses, hValues, -⟩ := words
      exact parses_write (A := .insertCommand) (by decide) rfl
        (parses_plain [tok .kInsert, tok .kInto, nt .tableName, chr '(', nt .insertColumnList,
            chr ')', tok .kValues, nt .valueList, nt .optionalRatelimit] (by decide) rfl
          (.token hInsert rfl (.token hInto rfl (.cons (parses_tableName into _ _)
            (.token hOpens rfl (.cons (parses_columns names (open_cons _ (by decide)) _)
              (.token hCloses rfl (.token hValues rfl
                (.filled (parses_rows values _ _) (.empty hlimit .nil))))))))) rfl)
  | replace words into names values returns =>
      obtain ⟨hReplace, hInto, hOpens, hCloses, hValues, -⟩ := words
      exact parses_write (A := .replaceCommand) (by decide) rfl
        (parses_plain [tok .kReplace, tok .kInto, nt .tableName, chr '(', nt .insertColumnList,
            chr ')', tok .kValues, nt .valueList, nt .optionalRatelimit, nt .optionalReturnValue]
          (by decide) rfl
          (.token hReplace rfl (.token hInto rfl (.cons (parses_tableName into _ _)
            (.token hOpens rfl (.cons (parses_columns names (open_cons _ (by decide)) _)
              (.token hCloses rfl (.token hValues rfl (.cons (parses_rows values _ _)
                (.empty hlimit (.last (returns.parses _ _))))))))))) rfl)
  | @set _ _ upsert _ _ _ _ _ _ _ _ words table sets clause returns =>
      cases upsert with
      | false =>
          obtain ⟨hUpdate, hSet, -⟩ := words
          exact parses_write (A := .updateCommand) (by decide) rfl
            (parses_plain [tok .kUpdate, nt .tableOptionalIndexName, tok .kSet, nt .setList,
                nt .optionalWhereClause, nt .optionalRatelimit, nt .optionalReturnValue]
              (by decide) rfl
              (.token hUpdate rfl (.cons (table.parses (open_cons _ (by decide)) _)
                (.token hSet rfl (.cons (parses_sets sets (open_cons _ (by decide)) _)
                  (.cons (clause.parses _ (returns.unranked hnext))
                    (.empty hlimit (.last (returns.parses _ _)))))))) rfl)
      | true =>
          obtain ⟨hUpsert, hSet, -⟩ := words
          exact parses_write (A := .upsertCommand) (by decide) rfl
            (parses_plain [tok .kUpsert, nt .tableOptionalIndexName, tok .kSet, nt .setList,
                nt .optionalWhereClause, nt .optionalRatelimit, nt .optionalReturnValue]
              (by decide) rfl
              (.token hUpsert rfl (.cons (table.parses (open_cons _ (by decide)) _)
                (.token hSet rfl (.cons (parses_sets sets (open_cons _ (by decide)) _)
                  (.cons (clause.parses _ (returns.unranked hnext))
                    (.empty hlimit (.last (returns.parses _ _)))))))) rfl)
  | remove words table removes clause returns =>
      obtain ⟨hUpdate, hRemove, -⟩ := words
      exact parses_write (A := .updateCommand) (by decide) rfl
        (parses_plain [tok .kUpdate, nt .tableOptionalIndexName, tok .kRemove, nt .removeList,
            nt .optionalWhereClause, nt .optionalRatelimit, nt .optionalReturnValue]
          (by decide) rfl
          (.token hUpdate rfl (.cons (table.parses (open_cons _ (by decide)) _)
            (.token hRemove rfl (.cons (parses_removes removes (open_cons _ (by decide)) _)
              (.cons (clause.parses _ (returns.unranked hnext))
                (.empty hlimit (.last (returns.parses _ _)))))))) rfl)
  | delete words table clause returns =>
      obtain ⟨hDelete, hFrom, -⟩ := words
      exact parses_write (A := .deleteCommand) (by decide) rfl
        (parses_plain [tok .kDelete, tok .kFrom, nt .tableOptionalIndexName,
            nt .optionalWhereClause, nt .optionalRatelimit, nt .optionalReturnValue] (by decide)
          rfl
          (.token hDelete rfl (.token hFrom rfl
            (.cons (table.parses (open_cons _ (by decide)) _)
              (.cons (clause.parses _ (returns.unranked hnext))
                (.empty hlimit (.last (returns.parses _ _))))))) rfl)

end Statements

/-! ### Scripts -/

/-- What no rate limit can be inside of. -/
def limitless : List Nonterminal := [
  .tableName, .string, .tableOptionalIndexName, .whereClause, .optionalWhereClause,
  .logicalExpression, .logicalExpressionElement, .leeLhs, .leeRhs, .leeRhsList, .mapElementList,
  .comparisonOp, .attributeType, .selectProjection, .selectAttributeList, .selectAttribute,
  .optionalConsistent, .setList, .setElement, .useLhs, .removeList, .optionalReturnValue,
  .insertColumnList, .insertColumn, .valueList, .insertValues, .insertValue]

def limitlessSym : Symbol → Bool
  | .t t => t ≠ .kind .kRatelimit
  | .n A => A ∈ limitless

theorem limitless_closed :
    (limitless.all fun A => (productions A).all fun rhs => rhs.all limitlessSym) = true := by
  decide +kernel

theorem unlimited_of_limitless {tree : ParseTree}
    (hvalid : tree.Valid SymbolType.kind statementGrammar)
    (h : limitlessSym (tree.symbol SymbolType.kind) = true) :
    ∀ t ∈ tree.yield, t.kind ≠ .kind .kRatelimit := by
  induction hvalid with
  | leaf token =>
      intro t ht
      obtain rfl := List.mem_singleton.mp ht
      simpa [limitlessSym, Tree.symbol] using h
  | @node A children hrule hchildren ih =>
      intro t ht
      rw [Tree.yield] at ht
      have hA := List.all_eq_true.mp limitless_closed A (of_decide_eq_true h)
      have hall := List.all_eq_true.mp (List.all_eq_true.mp hA _ hrule)
      obtain ⟨child, hchild, ht⟩ := LR.Tree.mem_yieldAll.mp ht
      exact ih child hchild (hall _ (List.mem_map_of_mem hchild)) t ht

/-- No token is the keyword of a rate limit. -/
def Limitless (ts : List SymbolType) : Prop := ∀ t ∈ ts, t.kind ≠ .kind .kRatelimit

namespace Limitless

variable {t : SymbolType} {kind : Terminal} {ts us : List SymbolType}

theorem cons (hkind : t.kind = kind) (hne : kind ≠ .kind .kRatelimit) (h : Limitless ts) :
    Limitless (t :: ts) := by
  intro u hu
  rcases List.mem_cons.mp hu with rfl | hu
  · rwa [hkind]
  · exact h u hu

theorem append (hts : Limitless ts) (hus : Limitless us) : Limitless (ts ++ us) := by
  intro u hu
  rcases List.mem_append.mp hu with hu | hu
  · exact hts u hu
  · exact hus u hu

theorem of_parses {A : Nonterminal} {v : Semantic} (h : ParsesAt [] none (nt A) v ts)
    (hA : A ∈ limitless) : Limitless ts := by
  obtain ⟨tree, hvalid, hsymbol, -, rfl, -⟩ := h
  refine unlimited_of_limitless hvalid ?_
  rw [hsymbol]
  exact decide_eq_true hA

end Limitless

theorem open_nil : Open [] := fun _ h => by cases h

theorem Explainable.Spelled.unlimited {command : Explainable} {ts : List SymbolType}
    (h : command.Spelled ts) : Limitless ts := by
  have hnone : Unranked none := fun _ h => by cases h
  cases h with
  | select words reads paths table clause =>
      obtain ⟨hSelect, hFrom, -⟩ := words
      exact .cons hSelect (by decide) (.append (.of_parses (reads.parses _ _) (by decide))
        (.append (.of_parses (paths.parses open_nil _) (by decide))
          (.cons hFrom (by decide) (.append (.of_parses (table.parses open_nil _) (by decide))
            (.of_parses (clause.parses _ hnone) (by decide))))))
  | insert words into names values =>
      obtain ⟨hInsert, hInto, hOpens, hCloses, hValues, -⟩ := words
      exact .cons hInsert (by decide) (.cons hInto (by decide)
        (.append (.of_parses (parses_tableName into _ _) (by decide)) (.cons hOpens (by decide)
          (.append (.of_parses (parses_columns names open_nil _) (by decide))
            (.cons hCloses (by decide) (.cons hValues (by decide)
              (.of_parses (parses_rows values _ _) (by decide))))))))
  | replace words into names values returns =>
      obtain ⟨hReplace, hInto, hOpens, hCloses, hValues, -⟩ := words
      exact .cons hReplace (by decide) (.cons hInto (by decide)
        (.append (.of_parses (parses_tableName into _ _) (by decide)) (.cons hOpens (by decide)
          (.append (.of_parses (parses_columns names open_nil _) (by decide))
            (.cons hCloses (by decide) (.cons hValues (by decide)
              (.append (.of_parses (parses_rows values _ _) (by decide))
                (.of_parses (returns.parses _ _) (by decide)))))))))
  | @set _ _ upsert _ _ _ _ _ _ _ _ words table sets clause returns =>
      obtain ⟨hUpdate, hSet, -⟩ := words
      exact .cons hUpdate (by cases upsert <;> decide)
        (.append (.of_parses (table.parses open_nil _) (by decide)) (.cons hSet (by decide)
          (.append (.of_parses (parses_sets sets open_nil _) (by decide))
            (.append (.of_parses (clause.parses _ hnone) (by decide))
              (.of_parses (returns.parses _ _) (by decide))))))
  | remove words table removes clause returns =>
      obtain ⟨hUpdate, hRemove, -⟩ := words
      exact .cons hUpdate (by decide)
        (.append (.of_parses (table.parses open_nil _) (by decide)) (.cons hRemove (by decide)
          (.append (.of_parses (parses_removes removes open_nil _) (by decide))
            (.append (.of_parses (clause.parses _ hnone) (by decide))
              (.of_parses (returns.parses _ _) (by decide))))))
  | delete words table clause returns =>
      obtain ⟨hDelete, hFrom, -⟩ := words
      exact .cons hDelete (by decide) (.cons hFrom (by decide)
        (.append (.of_parses (table.parses open_nil _) (by decide))
          (.append (.of_parses (clause.parses _ hnone) (by decide))
            (.of_parses (returns.parses _ _) (by decide)))))

theorem Explainable.Spelled.ne_nil {command : Explainable} {ts : List SymbolType}
    (h : command.Spelled ts) : ts ≠ [] := by
  cases h <;> exact List.cons_ne_nil _ _

/-- What is parsed as a statement is one of a batch, where it has its `;` or
nothing comes next. -/
theorem statement_of_parses {statement : Option ParsedStatement} {ts : List SymbolType}
    {next : Option Terminal} (h : ParsesAt [] next (nt .input) (.statement statement) ts)
    (hne : ts ≠ []) (hlimit : Limitless ts)
    (hended : next = none ∨ ∃ body s, ts = body ++ [s] ∧ s.kind = .kind .semicolon) :
    ∃ tree, StatementTree next tree ∧ tree.yield = ts ∧ statementOf tree = statement := by
  obtain ⟨tree, hvalid, hsymbol, hvalue, rfl, hobeys⟩ := h
  have hterminated : next = none ∨ Terminated tree := by
    refine hended.imp_right fun hends => ?_
    cases tree with
    | leaf token => cases hsymbol
    | node A children =>
        obtain rfl : A = .input := LR.Sym.n.inj hsymbol
        exact terminated_of_ends hvalid hends
  refine ⟨tree, ⟨hvalid, hsymbol, hne, hobeys, hterminated, sound_of_unlimited hvalid hlimit⟩,
    rfl, ?_⟩
  rw [statementOf, hvalue]

theorem Explainable.Spelled.parses_command {command : Explainable} {ts : List SymbolType}
    (h : command.Spelled ts) {next : Option Terminal} (hnext : Unranked next) :
    ParsesAt [] next (nt .command) (.command (.explainable command)) ts :=
  parses_plain [nt .dmlCommand] (by decide) rfl (.last (h.parses hnext)) rfl

theorem ScriptSpelled.exists_trees {commands : List Explainable} {ts : List SymbolType}
    (h : ScriptSpelled commands ts) :
    ∃ trees, BatchTrees trees ∧ statementTokens trees = ts ∧
      trees.map statementOf = commands.map fun command => some ⟨.explainable command, false⟩ := by
  induction h with
  | nil => exact ⟨[], trivial, rfl, rfl⟩
  | last h =>
      have hinput : ParsesAt [] none (nt .input)
          (.statement (some ⟨.explainable _, false⟩)) _ :=
        parses_plain [nt .command] (by decide) rfl
          (.last (h.parses_command fun _ h => by cases h)) rfl
      obtain ⟨tree, htree, hyield, hvalue⟩ :=
        statement_of_parses hinput h.ne_nil h.unlimited (.inl rfl)
      exact ⟨[tree], ⟨htree, trivial⟩, by simp [statementTokens, hyield], by simp [hvalue]⟩
  | @cons command commands ts us s h semicolon _ ih =>
      obtain ⟨trees, htrees, htokens, hvalues⟩ := ih
      have hnext : Unranked (some s.kind) := by
        intro t ht
        obtain rfl := Option.some.inj ht
        rw [semicolon]
        rfl
      have hinput : ParsesAt [] ((statementTokens trees).head?.map SymbolType.kind) (nt .input)
          (.statement (some ⟨.explainable command, false⟩)) (ts ++ [s]) :=
        parses_plain [nt .command, tok .semicolon] (by decide) rfl
          (.cons (h.parses_command hnext) (.token semicolon rfl .nil)) rfl
      obtain ⟨tree, htree, hyield, hvalue⟩ :=
        statement_of_parses hinput (by simp)
          (h.unlimited.append (.cons semicolon (by decide) fun _ ht => by cases ht))
          (.inr ⟨ts, s, rfl, semicolon⟩)
      refine ⟨tree :: trees, ⟨htree, htrees⟩, ?_, ?_⟩
      · rw [statementTokens, List.flatMap_cons, hyield, ← statementTokens, htokens,
          List.append_assoc, List.singleton_append]
      · rw [List.map_cons, hvalue, hvalues]
        rfl

/-- A script comes back as the commands that it spells. -/
theorem script_parses {commands : List Explainable} {ts : List SymbolType}
    (h : ScriptSpelled commands ts) :
    (parse ts).phase = .finished ∧
      statements (parse ts) = commands.map fun command => some ⟨.explainable command, false⟩ := by
  obtain ⟨trees, htrees, htokens, hvalues⟩ := h.exists_trees
  rw [htrees.parse_eq htokens]
  exact ⟨rfl, hvalues⟩

theorem script_parses_books :
    let text := [keywordToken .kDelete "DELETE", keywordToken .kFrom "FROM", wordToken "books",
      keywordToken .kWhere "WHERE", keywordToken .kNot "NOT", wordToken "lost",
      keywordToken .tEqual "=", keywordToken .kTrue "TRUE", keywordToken .kAnd "AND",
      wordToken "price", keywordToken .tEqual "=", keywordToken .tWholeNumber "5",
      keywordToken .semicolon ";", keywordToken .kSelect "SELECT", ⟨.character '*', "*"⟩,
      keywordToken .kFrom "FROM", wordToken "books"]
    (parse text).phase = .finished ∧ statements (parse text) =
      [some ⟨.explainable (.delete { table := "books", condition := some ⟨
          LogicalExpression.makeAnd (logicalComparison "lost" (.op .equal) (.BOOL true)).negate
            (logicalComparison "price" (.op .equal) (.N "5"))⟩ }), false⟩,
        some ⟨.explainable (.select { table := "books" }), false⟩] := by
  have hlost : Element.Spelled (.comparison "lost" (.op .equal) (.BOOL true))
      [wordToken "lost", keywordToken .tEqual "=", keywordToken .kTrue "TRUE"] :=
    .comparison (.name rfl) rfl (.true rfl)
  have hprice : Element.Spelled (.comparison "price" (.op .equal) (.N "5"))
      [wordToken "price", keywordToken .tEqual "=", keywordToken .tWholeNumber "5"] :=
    .comparison (.name rfl) rfl (.wholeNumber rfl)
  have hnot := SourceExpr.Spelled.not (t := keywordToken .kNot "NOT") rfl (.element hlost)
  have hclause := SourceExpr.Spelled.ofAnd
    (.and (t := keywordToken .kAnd "AND") rfl (.ofNot hnot) (.element hprice))
  have hdelete := Explainable.Spelled.delete (d := keywordToken .kDelete "DELETE")
    (f := keywordToken .kFrom "FROM") ⟨rfl, rfl, trivial⟩
    (.table (t := wordToken "books") rfl)
    (.present (t := keywordToken .kWhere "WHERE") rfl hclause) .absent
  have hselect := Explainable.Spelled.select (s := keywordToken .kSelect "SELECT")
    (f := keywordToken .kFrom "FROM") ⟨rfl, rfl, trivial⟩ .absent
    (.all (t := ⟨.character '*', "*"⟩) rfl) (.table (t := wordToken "books") rfl) .absent
  exact script_parses (.cons (s := keywordToken .semicolon ";") hdelete rfl (.last hselect))

end DdbShell
