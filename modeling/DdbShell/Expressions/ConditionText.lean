import DdbShell.Expressions.PathText
import DdbShell.Expressions.Tokens

/-!
Rendered conditions read back. A leaf on a well-formed operand is spelled as a
leaf condition of the same truth value, and a token sequence as the sequence of
those conditions, under the aliases of any later symbol table of the run.
-/

namespace DdbShell

open Lexing (Lexeme lex_word)
open Infix (Token)
open SymbolTable

/-! ### The condition a leaf is spelled as -/

def Predicate.condition (p : Path) : Predicate → Condition
  | .comparison op rhs => .compare op (.path p) (.value rhs)
  | .between lo hi => .between (.path p) (.value lo) (.value hi)
  | .beginsWith start => .beginsWith p (.value start)
  | .isIn rhs => .isIn (.path p) (rhs.map .value)
  | .contains operand => .contains p (.value operand)
  | .attributeType type => .type p (.value (.S type.text))
  | .attributeExists => .exists p

def Leaf.condition (l : Leaf) : Condition := l.predicate.condition ((operandPath l.lhs).getD [])

/-- The operand is a document path and an IN list has an entry. -/
def Leaf.wellFormed (l : Leaf) : Bool := (operandPath l.lhs).isSome && l.predicate ≠ .isIn []

/-- The item view of a document: operand texts resolve through their paths. -/
def Document.item (doc : Document) : Item := fun lhs => (operandPath lhs).bind doc

theorem scalarType_text (type : ScalarType) : Service.scalarType (.S type.text) = some type := by
  cases type <;> rfl

theorem Leaf.conditionHolds_condition (svc : Service) (doc : Document) {l : Leaf}
    (h : l.wellFormed = true) :
    svc.conditionHolds doc l.condition = svc.leafHolds doc.item l := by
  simp only [wellFormed, Bool.and_eq_true] at h
  obtain ⟨p, hp⟩ := Option.isSome_iff_exists.mp h.1
  have hitem : doc.item l.lhs = doc p := by simp [Document.item, hp]
  have hlist : ∀ rhs : List Value,
      (rhs.map Operand.value).filterMap (Operand.resolve doc) = rhs := by
    intro rhs
    simp [List.filterMap_map, Function.comp_def, Operand.resolve]
  simp only [condition, hp, Option.getD_some]
  unfold Service.leafHolds
  rw [hitem]
  cases hq : l.predicate with
  | comparison op rhs =>
      cases op <;> cases hx : doc p <;>
        simp [Predicate.condition, Service.conditionHolds, Service.testOperand, Operand.resolve, hx]
  | isIn rhs =>
      cases hx : doc p <;>
        simp [Predicate.condition, Service.conditionHolds, Service.testOperand, Operand.resolve,
          hlist, hx]
  | attributeType type =>
      cases hx : doc p <;>
        simp [Predicate.condition, Service.conditionHolds, Service.testOperand, Operand.resolve,
          scalarType_text, hx]
  | _ =>
      cases hx : doc p <;>
        simp [Predicate.condition, Service.conditionHolds, Service.testOperand, Operand.resolve, hx]

/-! ### Minted values -/

theorem newValue_reads {st st' : SymbolTable} (hst : Valid st) (v : Value)
    (hext : Extends (newValue v st).2 st') (rest : List Lexeme) :
    readOperand st'.aliases (lexemes (newValue v st).1 ++ rest) = some (.value v, rest) := by
  have htoken : (newValue v st).1 = valueToken st.namePrefix st.valueIx := rfl
  have hword : lexemes (newValue v st).1 = [.word (newValue v st).1.toList] := by
    rw [htoken]
    refine lex_word ?_ (valueToken_word hst.wordPrefix _)
    simp [valueToken]
  have hcolon : (newValue v st).1.toList =
      ':' :: ('v' :: st.namePrefix.toList ++ (toString st.valueIx).toList) := by
    simp [htoken, valueToken]
  have hvalue := hext.values _ _ (newValue_values hst v)
  rw [hword, hcolon, List.singleton_append, readOperand, ← hcolon, String.ofList_toList]
  simp only [SymbolTable.aliases, hvalue, Option.map_some]

theorem newValues_mints (values : List Value) : Mints (newValues values) := by
  induction values with
  | nil => exact .pure _
  | cons v values ih => exact (newValue_mints v).bind fun _ => ih.bind fun _ => .pure _

theorem newValues_reads {st st' : SymbolTable} (hst : Valid st) (v : Value) (values : List Value)
    (hext : Extends (newValues (v :: values) st).2 st') (rest : List Lexeme) (n : Nat)
    (hn : (lexemes (joinWith ", " (newValues (v :: values) st).1) ++
      .single ')' :: rest).length ≤ n) :
    readOperands st'.aliases n
        (lexemes (joinWith ", " (newValues (v :: values) st).1) ++ .single ')' :: rest) =
      some ((v :: values).map .value, rest) := by
  induction values generalizing st v n with
  | nil =>
      have hread := newValue_reads hst v hext (.single ')' :: rest)
      cases n with
      | zero => simp at hn
      | succ n =>
          simp only [newValues, Alias.bind_apply, Alias.pure_apply, joinWith, readOperands, hread]
          rfl
  | cons w values ih =>
      obtain ⟨hmid, _⟩ := newValue_grows v st hst
      have hext' := ((newValues_mints (w :: values)).grows _ hmid).2.trans hext
      have hread := newValue_reads hst v hext'
      have hlex : lexemes (joinWith ", " (newValues (v :: w :: values) st).1) =
          lexemes (newValue v st).1 ++ .single ',' ::
            lexemes (joinWith ", " (newValues (w :: values) (newValue v st).2).1) := by
        have hgap := lexemes_gap (s := ", ") (by decide) (newValue v st).1
          (joinWith ", " (newValues (w :: values) (newValue v st).2).1)
        rw [show lexemes ", " = [.single ','] by decide] at hgap
        simpa [newValues, joinWith] using hgap
      rw [hlex] at hn ⊢
      simp only [List.append_assoc, List.cons_append, List.length_append, List.length_cons] at hn ⊢
      cases n with
      | zero => omega
      | succ n =>
          have htail := ih hmid w hext n (by
            simp only [List.length_append, List.length_cons]
            omega)
          simp [readOperands, hread, htail]

/-! ### Leaves -/

theorem readOperand_of_readPath {al : Aliases} {ls rest : List Lexeme} {p : Path}
    (h : readPath al ls = some (p, rest)) : readOperand al ls = some (.path p, rest) := by
  unfold readOperand
  split
  · simp [readPath, readName] at h
  · rw [h]
    rfl

/-- In front of a parenthesis a word is a whole operand. -/
theorem readOperand_call {al : Aliases} {w : List Char} {ls rest : List Lexeme} {o : Operand}
    (h : readOperand al (.word w :: .single '(' :: ls) = some (o, rest)) :
    startsWith '(' rest = true := by
  unfold readOperand at h
  split at h
  · rename_i heq
    cases heq
    obtain ⟨v, _, hsame⟩ := Option.map_eq_some_iff.mp h
    cases hsame
    rfl
  · rw [readPath] at h
    cases hname : readName al w with
    | none => simp [hname] at h
    | some name =>
        simp only [hname, readTail_stops (show Stops (.single '(' :: ls) by
          simp [Stops, startsWith])] at h
        cases h
        rfl

/-- A leaf that starts with its operand. -/
theorem readCondition_of_readOperand {al : Aliases} {ls rest : List Lexeme} {o : Operand}
    (h : readOperand al ls = some (o, rest)) (hrest : startsWith '(' rest = false) :
    readCondition al ls = readComparison al o rest := by
  unfold readCondition
  split
  · rw [readOperand_call h] at hrest
    cases hrest
  · rw [h]

theorem doSerialize_mints (l : Leaf) : Mints l.doSerialize := by
  refine (newAttribute_mints l.lhs).bind fun lhs => ?_
  cases l.predicate with
  | comparison op rhs => exact (newValue_mints rhs).bind fun _ => .pure _
  | between lo hi =>
      exact (newValue_mints lo).bind fun _ => (newValue_mints hi).bind fun _ => .pure _
  | beginsWith start => exact (newValue_mints start).bind fun _ => .pure _
  | isIn rhs => exact (newValues_mints rhs).bind fun _ => .pure _
  | contains operand => exact (newValue_mints operand).bind fun _ => .pure _
  | attributeType type => exact (newValue_mints _).bind fun _ => .pure _
  | attributeExists => exact .pure _

/-- The spelled arguments of a function of a path and a value. -/
theorem readArguments_spelled {st st' : SymbolTable} (hst : Valid st) (hst' : Valid st')
    {lhs : String} {p : Path} (hpath : operandPath lhs = some p) (v : Value)
    (hext : Extends (newValue v (newAttribute lhs st).2).2 st') (rest : List Lexeme) :
    readArguments st'.aliases (lexemes (newAttribute lhs st).1 ++ .single ',' ::
        (lexemes (newValue v (newAttribute lhs st).2).1 ++ .single ')' :: rest)) =
      some ((p, .value v), rest) := by
  obtain ⟨hmid, _⟩ := newAttribute_grows lhs st hst
  have hstop : Stops (.single ',' ::
      (lexemes (newValue v (newAttribute lhs st).2).1 ++ .single ')' :: rest)) := by
    simp [Stops, startsWith]
  rw [readArguments,
    newAttribute_reads hst hst' hpath ((newValue_grows v _ hmid).2.trans hext) hstop]
  simp [newValue_reads hmid v hext]

/-- The lexemes of a spelled function call. -/
theorem lexemes_call (f a b : String) (hopen : f.toList.getLast?.all opens = true) :
    lexemes (f ++ a ++ ", " ++ b ++ ")") =
      lexemes f ++ (lexemes a ++ .single ',' :: (lexemes b ++ [.single ')'])) := by
  rw [lexemes_starting (s := ")") (by decide), lexemes_gap (s := ", ") (by decide),
    lexemes_ending hopen, show lexemes ", " = [.single ','] by decide,
    show lexemes ")" = [.single ')'] by decide]
  simp

/-- The three leaf functions of a path and a value. -/
theorem readCondition_call {al : Aliases} {a b : String} {rest : List Lexeme} {p : Path}
    {o : Operand}
    (h : readArguments al (lexemes a ++ .single ',' :: (lexemes b ++ .single ')' :: rest)) =
      some ((p, o), rest)) :
    readCondition al (lexemes ("begins_with(" ++ a ++ ", " ++ b ++ ")") ++ rest) =
        some (.beginsWith p o, rest) ∧
      readCondition al (lexemes ("contains(" ++ a ++ ", " ++ b ++ ")") ++ rest) =
        some (.contains p o, rest) ∧
      readCondition al (lexemes ("attribute_type(" ++ a ++ ", " ++ b ++ ")") ++ rest) =
        some (.type p o, rest) := by
  refine ⟨?_, ?_, ?_⟩
  · rw [lexemes_call _ _ _ (by decide),
      show lexemes "begins_with(" = [.word "begins_with".toList, .single '('] by decide]
    simp [readCondition, h]
  · rw [lexemes_call _ _ _ (by decide),
      show lexemes "contains(" = [.word "contains".toList, .single '('] by decide]
    simp [readCondition, h]
  · rw [lexemes_call _ _ _ (by decide),
      show lexemes "attribute_type(" = [.word "attribute_type".toList, .single '('] by decide]
    simp [readCondition, h]

theorem lexemes_comparison (op : ComparisonOp) (a b : String) :
    lexemes (a ++ " " ++ op.text ++ " " ++ b) =
      lexemes a ++ .operator op.text.toList :: lexemes b := by
  have hgap : isGap (" " ++ op.text ++ " ") = true := by cases op <;> decide
  have hop : lexemes (" " ++ op.text ++ " ") = [.operator op.text.toList] := by
    cases op <;> decide
  have hlex := lexemes_gap hgap a b
  rw [hop] at hlex
  simpa [String.append_assoc] using hlex

theorem readComparator_text (op : ComparisonOp) : readComparator op.text.toList = some op := by
  cases op <;> decide

/-- A function of one path. -/
theorem readArgument_spelled {st st' : SymbolTable} (hst : Valid st) (hst' : Valid st')
    {lhs : String} {p : Path} (hpath : operandPath lhs = some p)
    (hext : Extends (newAttribute lhs st).2 st') (rest : List Lexeme) :
    readArgument st'.aliases (lexemes (newAttribute lhs st).1 ++ .single ')' :: rest) =
      some (p, rest) := by
  have hstop : Stops (.single ')' :: rest) := by simp [Stops, startsWith]
  rw [readArgument, newAttribute_reads hst hst' hpath hext hstop]
  rfl

/-- A leaf that starts with its operand is read up to what follows the path. -/
theorem readCondition_spelled {st st' : SymbolTable} (hst : Valid st) (hst' : Valid st')
    {lhs : String} {p : Path} (hpath : operandPath lhs = some p)
    (hext : Extends (newAttribute lhs st).2 st') (ms : List Lexeme) (hstop : Stops ms)
    (hms : startsWith '(' ms = false) :
    readCondition st'.aliases (lexemes (newAttribute lhs st).1 ++ ms) =
      readComparison st'.aliases (.path p) ms :=
  readCondition_of_readOperand
    (readOperand_of_readPath (newAttribute_reads hst hst' hpath hext hstop)) hms

/-- Every leaf ends with a value or a parenthesis, so what follows it does not
matter. -/
theorem doSerialize_reads {l : Leaf} (hl : l.wellFormed = true) {st st' : SymbolTable}
    (hst : Valid st) (hst' : Valid st') (hext : Extends (l.doSerialize st).2 st')
    (rest : List Lexeme) :
    readCondition st'.aliases (lexemes (l.doSerialize st).1 ++ rest) =
      some (l.condition, rest) := by
  obtain ⟨lhs, predicate⟩ := l
  simp only [Leaf.wellFormed, Bool.and_eq_true] at hl
  obtain ⟨p, hp⟩ := Option.isSome_iff_exists.mp hl.1
  obtain ⟨hmid, _⟩ := newAttribute_grows lhs st hst
  simp only [Leaf.condition, hp, Option.getD_some]
  cases predicate with
  | comparison op rhs =>
      have hext' := (newValue_grows rhs _ hmid).2.trans hext
      have hcond := readCondition_spelled hst hst' hp hext' (.operator op.text.toList ::
        (lexemes (newValue rhs (newAttribute lhs st).2).1 ++ rest)) (by simp [Stops, startsWith])
        rfl
      simp only [Leaf.doSerialize, Alias.bind_apply, Alias.pure_apply, lexemes_comparison,
        List.append_assoc, List.cons_append, hcond]
      simp [readComparison, readComparator_text, newValue_reads hmid rhs hext,
        Predicate.condition]
  | between lo hi =>
      obtain ⟨hlo, _⟩ := newValue_grows lo _ hmid
      have hext'' := (newValue_grows hi _ hlo).2.trans hext
      have hext' := (newValue_grows lo _ hmid).2.trans hext''
      have hcond := readCondition_spelled hst hst' hp hext' (.word "BETWEEN".toList ::
        (lexemes (newValue lo (newAttribute lhs st).2).1 ++ .word "AND".toList ::
          (lexemes (newValue hi (newValue lo (newAttribute lhs st).2).2).1 ++ rest)))
        (by simp [Stops, startsWith]) rfl
      simp only [Leaf.doSerialize, Alias.bind_apply, Alias.pure_apply]
      rw [lexemes_gap (s := " AND ") (by decide), lexemes_gap (s := " BETWEEN ") (by decide),
        show lexemes " AND " = [.word "AND".toList] by decide,
        show lexemes " BETWEEN " = [.word "BETWEEN".toList] by decide]
      simp only [List.append_assoc, List.cons_append, List.nil_append, hcond]
      simp [readComparison, newValue_reads hmid lo hext'', newValue_reads hlo hi hext,
        Predicate.condition]
  | beginsWith start =>
      exact (readCondition_call (readArguments_spelled hst hst' hp start hext rest)).1
  | isIn rhs =>
      cases rhs with
      | nil => exact absurd hl.2 (by simp)
      | cons v values =>
          have hext' := ((newValues_mints (v :: values)).grows _ hmid).2.trans hext
          have hcond := readCondition_spelled hst hst' hp hext' (.word "IN".toList :: .single '(' ::
            (lexemes (joinWith ", " (newValues (v :: values) (newAttribute lhs st).2).1) ++
              .single ')' :: rest)) (by simp [Stops, startsWith]) rfl
          have hlist := newValues_reads hmid v values hext rest _ (Nat.le_refl _)
          simp only [Leaf.doSerialize, Alias.bind_apply, Alias.pure_apply]
          rw [lexemes_starting (s := ")") (by decide), lexemes_gap (s := " IN (") (by decide),
            show lexemes ")" = [.single ')'] by decide,
            show lexemes " IN (" = [.word "IN".toList, .single '('] by decide]
          simp only [List.append_assoc, List.cons_append, List.nil_append, hcond]
          simp only [String.reduceToList, readComparison, hlist, Option.map_some,
            Predicate.condition]
  | contains operand =>
      exact (readCondition_call (readArguments_spelled hst hst' hp operand hext rest)).2.1
  | attributeType type =>
      exact (readCondition_call (readArguments_spelled hst hst' hp _ hext rest)).2.2
  | attributeExists =>
      have harg := readArgument_spelled hst hst' hp hext rest
      simp only [Leaf.doSerialize, Alias.bind_apply, Alias.pure_apply]
      rw [lexemes_starting (s := ")") (by decide), lexemes_ending (s := "attribute_exists(")
        (by decide), show lexemes ")" = [.single ')'] by decide,
        show lexemes "attribute_exists(" = [.word "attribute_exists".toList, .single '(']
          by decide]
      simp [readCondition, harg, Predicate.condition]

/-! ### Token sequences -/

theorem readCondition_keyword (al : Aliases) {w : List Char}
    (hw : w = ['N', 'O', 'T'] ∨ w = ['A', 'N', 'D'] ∨ w = ['O', 'R']) (rest : List Lexeme) :
    readCondition al (.word w :: rest) = none := by
  have hname : readName al w = none := by
    rcases hw with rfl | rfl | rfl <;> rfl
  have hoperand : readOperand al (.word w :: rest) = none := by
    rcases hw with rfl | rfl | rfl <;> simp_all [readOperand, readPath]
  unfold readCondition
  split
  · rename_i heq
    cases heq
    rcases hw with rfl | rfl | rfl <;> simp
  · rw [hoperand]

/-- The lexemes are read as these tokens, on any fuel that covers them. -/
def ReadAs (al : Aliases) (ls : List Lexeme) (ts : List (Token Condition)) : Prop :=
  ∀ n, ls.length ≤ n → readTokens al n ls = some ts

namespace ReadAs

variable {al : Aliases} {ls rest : List Lexeme} {ts : List (Token Condition)}

theorem nil : ReadAs al [] [] := by
  intro n _
  cases n <;> rfl

theorem lparen (h : ReadAs al rest ts) : ReadAs al (.single '(' :: rest) (.lparen :: ts) := by
  intro n hn
  cases n with
  | zero => simp at hn
  | succ n => simp [readTokens, h n (by simpa using hn)]

theorem rparen (h : ReadAs al rest ts) : ReadAs al (.single ')' :: rest) (.rparen :: ts) := by
  intro n hn
  cases n with
  | zero => simp at hn
  | succ n => simp [readTokens, h n (by simpa using hn)]

theorem not (h : ReadAs al rest ts) : ReadAs al (.word "NOT".toList :: rest) (.not :: ts) := by
  intro n hn
  cases n with
  | zero => simp at hn
  | succ n => simp [readTokens, h n (by simpa using hn)]

theorem and (h : ReadAs al rest ts) : ReadAs al (.word "AND".toList :: rest) (.and :: ts) := by
  intro n hn
  cases n with
  | zero => simp at hn
  | succ n => simp [readTokens, h n (by simpa using hn)]

theorem or (h : ReadAs al rest ts) : ReadAs al (.word "OR".toList :: rest) (.or :: ts) := by
  intro n hn
  cases n with
  | zero => simp at hn
  | succ n => simp [readTokens, h n (by simpa using hn)]

/-- What is read as a leaf condition starts with no connective. -/
theorem atom {c : Condition} {a : List Lexeme}
    (hread : readCondition al (a ++ rest) = some (c, rest)) (hne : a ≠ [])
    (h : ReadAs al rest ts) : ReadAs al (a ++ rest) (.atom c :: ts) := by
  intro n hn
  have hlen : 0 < a.length := List.length_pos_iff.mpr hne
  rw [List.length_append] at hn
  cases n with
  | zero => omega
  | succ n =>
      have htail := h n (by omega)
      generalize hls : a ++ rest = ls at hread ⊢
      unfold readTokens
      split
      · simp [readCondition, readOperand, readPath] at hread
      · simp_all
      · simp [readCondition, readOperand, readPath] at hread
      · simp [readCondition, readOperand, readPath] at hread
      · rw [readCondition_keyword al (.inl rfl)] at hread
        cases hread
      · rw [readCondition_keyword al (.inr (.inl rfl))] at hread
        cases hread
      · rw [readCondition_keyword al (.inr (.inr rfl))] at hread
        cases hread
      · rename_i heq _ _ _ _ _ _
        cases heq
        simp [hread, htail]

end ReadAs

theorem spell_mints (ts : Tokens) : Mints (spell ts) := by
  induction ts with
  | nil => exact .pure _
  | cons t ts ih =>
      cases t with
      | atom l => exact (doSerialize_mints l).bind fun _ => ih.bind fun _ => .pure _
      | _ => exact ih.bind fun _ => .pure _

/-- What may stand after an atom starts with a blank or a parenthesis. -/
theorem spell_closes {ts : Tokens} (h : Infix.closes ts = true) (st : SymbolTable) :
    (spell ts st).1.toList.head?.all opens = true := by
  cases ts with
  | nil => rfl
  | cons t ts =>
      cases t with
      | atom l => cases h
      | not => cases h
      | _ => simp [spell]; decide

theorem doSerialize_lexemes_ne_nil {l : Leaf} (hl : l.wellFormed = true) {st : SymbolTable}
    (hst : Valid st) : lexemes (l.doSerialize st).1 ≠ [] := by
  intro hempty
  have hread := doSerialize_reads hl hst ((doSerialize_mints l).grows st hst).1 (Extends.refl _) []
  rw [hempty] at hread
  cases hread

/-- A spelled token sequence with further lexemes after it. -/
theorem spell_readAs {ts : Tokens} (hleaves : ∀ l, .atom l ∈ ts → l.wellFormed = true)
    (hspaced : Infix.spaced ts = true) {st st' : SymbolTable} (hst : Valid st)
    (hst' : Valid st') (hext : Extends (spell ts st).2 st') {rest : List Lexeme}
    {us : List (Token Condition)} (hrest : ReadAs st'.aliases rest us) :
    ReadAs st'.aliases (lexemes (spell ts st).1 ++ rest) (ts.map (Token.map Leaf.condition) ++ us)
    := by
  induction ts generalizing st with
  | nil => exact hrest
  | cons t ts ih =>
      have hleaves' : ∀ l, .atom l ∈ ts → l.wellFormed = true :=
        fun l hmem => hleaves l (List.mem_cons_of_mem _ hmem)
      cases t with
      | atom l =>
          simp only [Infix.spaced, Bool.and_eq_true] at hspaced
          have hl := hleaves l (by simp)
          obtain ⟨hmid, _⟩ := (doSerialize_mints l).grows st hst
          have hext' := ((spell_mints ts).grows _ hmid).2.trans hext
          have htail := ih hleaves' hspaced.2 hmid hext
          simp only [spell, Alias.bind_apply, Alias.pure_apply]
          rw [lexemes_starting (spell_closes hspaced.1 _), List.append_assoc]
          exact .atom (doSerialize_reads hl hst hst' hext' _)
            (doSerialize_lexemes_ne_nil hl hst) htail
      | not =>
          have htail := ih hleaves' hspaced hst hext
          simp only [spell, Alias.bind_apply, Alias.pure_apply]
          rw [lexemes_ending (s := "NOT ") (by decide)]
          exact .not htail
      | and =>
          have htail := ih hleaves' hspaced hst hext
          simp only [spell, Alias.bind_apply, Alias.pure_apply]
          rw [lexemes_ending (s := " AND ") (by decide)]
          exact .and htail
      | or =>
          have htail := ih hleaves' hspaced hst hext
          simp only [spell, Alias.bind_apply, Alias.pure_apply]
          rw [lexemes_ending (s := " OR ") (by decide)]
          exact .or htail
      | lparen =>
          have htail := ih hleaves' hspaced hst hext
          simp only [spell, Alias.bind_apply, Alias.pure_apply]
          rw [lexemes_ending (s := "(") (by decide)]
          exact .lparen htail
      | rparen =>
          have htail := ih hleaves' hspaced hst hext
          simp only [spell, Alias.bind_apply, Alias.pure_apply]
          rw [lexemes_ending (s := ")") (by decide)]
          exact .rparen htail

theorem readConditionExpression_of_readAs {al : Aliases} {text : String}
    {ts : List (Token Condition)} (h : ReadAs al (lexemes text) ts) :
    readConditionExpression al text = Infix.parse ts := by
  simp [readConditionExpression, h _ (Nat.le_refl _)]

/-- A spelled condition reads back with the truth value it denotes. -/
theorem readConditionExpression_spell {p : Infix.Prec} {ts : Tokens} {f : (Leaf → Bool) → Bool}
    {full : Bool} (hdenotes : Infix.Denotes p ts f full)
    (hleaves : ∀ l, .atom l ∈ ts → l.wellFormed = true) {st st' : SymbolTable} (hst : Valid st)
    (hst' : Valid st') (hext : Extends (spell ts st).2 st') :
    ∃ c, readConditionExpression st'.aliases (spell ts st).1 = some c ∧ c.full = full ∧
      ∀ v, c.eval v = f fun l => v l.condition := by
  obtain ⟨e, hreads, hvalue, hfull⟩ := (hdenotes.map Leaf.condition).toOr
  obtain ⟨e', hreads', _⟩ := hdenotes
  have hread := spell_readAs hleaves hreads'.spaced hst hst' hext ReadAs.nil
  rw [List.append_nil, List.append_nil] at hread
  refine ⟨e, ?_, hfull, hvalue⟩
  rw [readConditionExpression_of_readAs hread]
  exact Infix.parse_eq_some_iff.mpr hreads

end DdbShell
