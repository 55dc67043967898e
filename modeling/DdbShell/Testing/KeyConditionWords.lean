import DdbShell.Execute.KeyReferences
import DdbShell.Lib.Words
import DdbShell.Planner.QueryLegality
import DdbShell.Testing.MemoryClient

/-!
The key conditions that the engine spells, read word by word. Parentheses are
breaks and an AND between conditions is passed over, so however the conjuncts
are grouped the words of a key condition are those of its leaves, and every
leaf on a plain name is read as the predicate it says.
-/

namespace DdbShell

open Infix (Token)
open LogicalExpression (Grown Part keyConditionPart filterPart or_not_mem_part)
open SymbolTable
open Words

/-- The predicate a leaf of a key condition says. -/
def Leaf.keyPredicate (l : Leaf) : Option KeyPredicate :=
  match l.predicate with
  | .comparison op rhs => some { attr := l.lhs, op := op.text, v1 := rhs }
  | .between lo hi => some { attr := l.lhs, op := "between", v1 := lo, v2 := hi }
  | .beginsWith start => some { attr := l.lhs, op := "begins_with", v1 := start }
  | .isIn _ | .contains _ | .attributeType _ | .attributeExists => none

/-! ### Words of assembled text -/

section Split

variable {breaks : List Char}

theorem splitWords_eq (text : String) :
    splitWords breaks text = (words (breaks.contains ·) text.toList).map String.ofList := rfl

/-- The text before it ends in a break. -/
theorem splitWords_ending {s : String} (h : s.toList.getLast?.all (breaks.contains ·) = true)
    (b : String) : splitWords breaks (s ++ b) = splitWords breaks s ++ splitWords breaks b := by
  rw [splitWords_eq, splitWords_eq, splitWords_eq, String.toList_append, words_append_of_last h,
    List.map_append]

theorem splitWords_starting {s : String} (h : s.toList.head?.all (breaks.contains ·) = true)
    (a : String) : splitWords breaks (a ++ s) = splitWords breaks a ++ splitWords breaks s := by
  rw [splitWords_eq, splitWords_eq, splitWords_eq, String.toList_append, words_append_of_head h,
    List.map_append]

/-- Literal text with a break on both ends. -/
theorem splitWords_between {s : String} (hfirst : s.toList.head?.any (breaks.contains ·) = true)
    (hlast : s.toList.getLast?.any (breaks.contains ·) = true) (a b : String) :
    splitWords breaks (a ++ s ++ b) =
      splitWords breaks a ++ splitWords breaks s ++ splitWords breaks b := by
  obtain ⟨c, hc, hbreak⟩ := Option.any_eq_true _ _ |>.mp hfirst
  obtain ⟨d, hd, hbreak'⟩ := Option.any_eq_true _ _ |>.mp hlast
  rw [splitWords_ending (by simpa [List.getLast?_append, hd] using hbreak'),
    splitWords_starting (by simpa [hc] using hbreak)]

theorem splitWords_word {s : String} (hne : s ≠ "") (h : ∀ c ∈ s.toList, c ∉ breaks) :
    splitWords breaks s = [s] := by
  have hfree : ∀ c ∈ s.toList, breaks.contains c = false := by
    intro c hc
    simpa using h c hc
  rw [splitWords_eq, words_word (by simpa using hne) hfree]
  simp

end Split

/-- What separates the words of a key condition. -/
def conditionBreaks : List Char := [' ', '(', ')', ',']

def isConditionBreak (c : Char) : Bool := conditionBreaks.contains c

/-- The words of a key condition. -/
def conditionWords (text : String) : List String := splitWords conditionBreaks text

theorem conditionWords_ending {s : String} (h : s.toList.getLast?.all isConditionBreak = true)
    (b : String) : conditionWords (s ++ b) = conditionWords s ++ conditionWords b :=
  splitWords_ending h b

theorem conditionWords_starting {s : String} (h : s.toList.head?.all isConditionBreak = true)
    (a : String) : conditionWords (a ++ s) = conditionWords a ++ conditionWords s :=
  splitWords_starting h a

theorem conditionWords_between {s : String} (hfirst : s.toList.head?.any isConditionBreak = true)
    (hlast : s.toList.getLast?.any isConditionBreak = true) (a b : String) :
    conditionWords (a ++ s ++ b) = conditionWords a ++ conditionWords s ++ conditionWords b :=
  splitWords_between hfirst hlast a b

theorem conditionWords_word {s : String} (hne : s ≠ "")
    (h : ∀ c ∈ s.toList, charClass c = .word) : conditionWords s = [s] := by
  refine splitWords_word hne fun c hc hbreak => ?_
  have hword := h c hc
  simp only [conditionBreaks, List.mem_cons, List.not_mem_nil, or_false] at hbreak
  rcases hbreak with rfl | rfl | rfl | rfl <;> exact absurd hword (by decide)

/-! ### Tokens -/

/-- A token of the engine: one word, resolved by the tables of the request. -/
structure NameToken (names : ExpressionAttributeNames) (token name : String) : Prop where
  word : conditionWords token = [token]
  hash : token.toList.head? = some '#'
  resolves : resolveName names token = name

structure ValueToken (values : ValueMap) (token : String) (v : Value) : Prop where
  word : conditionWords token = [token]
  resolves : resolveValue values token = v

theorem newBare_token {st st' : SymbolTable} (hst : Valid st) (hst' : Valid st') (name : String)
    (hext : Extends (newBare name st).2 st') :
    NameToken (namesOf st') (newBare name st).1 name := by
  have hmid := hst.newBare name
  obtain ⟨i, _, htoken⟩ := hmid.names _ _ (newBare_names name st)
  have hresolved := hst'.getNames (hext.names _ _ (newBare_names name st))
  have hlookup : (namesOf st').lookup (newBare name st).1 = some name := by
    rw [namesOf, Maps.lookup_toList]
    exact hresolved
  refine ⟨?_, ?_, ?_⟩
  · rw [htoken]
    exact conditionWords_word (by simp [attrToken]) (attrToken_word hmid.wordPrefix i)
  · rw [htoken]
    simp [attrToken]
  · rw [resolveName, hlookup]
    rfl

theorem newAttribute_token {st st' : SymbolTable} (hst : Valid st) (hst' : Valid st')
    {name : String} (hplain : isPlainName name = true)
    (hext : Extends (newAttribute name st).2 st') :
    NameToken (namesOf st') (newAttribute name st).1 name := by
  rw [newAttribute_plain hplain] at hext ⊢
  exact newBare_token hst hst' name hext

theorem newValue_token {st st' : SymbolTable} (hst : Valid st) (v : Value)
    (hext : Extends (newValue v st).2 st') :
    ValueToken (valuesOf st') (newValue v st).1 v := by
  have htoken : (newValue v st).1 = valueToken st.namePrefix st.valueIx := rfl
  have hlookup : (valuesOf st').lookup (newValue v st).1 = some v := by
    rw [valuesOf, Maps.lookup_toList]
    exact hext.values _ _ (newValue_values hst v)
  refine ⟨?_, ?_⟩
  · rw [htoken]
    exact conditionWords_word (by simp [valueToken]) (valueToken_word hst.wordPrefix _)
  · rw [resolveValue, hlookup]
    rfl

theorem toUpper_eq_iff {s t : String} : s.toUpper = t ↔ s.toList.map Char.toUpper = t.toList := by
  rw [← String.toList_inj, String.toUpper, String.toList_map]

theorem NameToken.not_and {names : ExpressionAttributeNames} {token name : String}
    (h : NameToken names token name) : token.toUpper ≠ "AND" := by
  intro heq
  have hhead := congrArg List.head? (toUpper_eq_iff.mp heq)
  rw [List.head?_map, h.hash] at hhead
  revert hhead
  decide

theorem NameToken.not_function {names : ExpressionAttributeNames} {token name : String}
    (h : NameToken names token name) : token ≠ "begins_with" := by
  rintro rfl
  have hhash := h.hash
  revert hhash
  decide

/-! ### Reading a leaf -/

section Reading

variable {names : ExpressionAttributeNames} {values : ValueMap}

theorem readPredicates_and (ws : List String) :
    readPredicates names values 0 ("AND" :: ws) = readPredicates names values 0 ws := by
  rw [readPredicates, if_pos (toUpper_eq_iff.mpr (by decide))]

theorem readPredicates_at {token : String} {rest : List String} {p : KeyPredicate} {taken : Nat}
    (hand : token.toUpper ≠ "AND") (h : predicateAt names values token rest = some (p, taken)) :
    readPredicates names values 0 (token :: rest) =
      p :: readPredicates names values taken rest := by
  rw [readPredicates, if_neg hand, h]

variable {a b c name : String} {x y : Value}

theorem readPredicates_comparison (ha : NameToken names a name) (hb : ValueToken values b x)
    (op : ComparisonOp) (ws : List String) :
    readPredicates names values 0 (a :: op.text :: b :: ws) =
      { attr := name, op := op.text, v1 := x } :: readPredicates names values 0 ws := by
  have hbetween : ¬ (op.text.toUpper = "BETWEEN" ∧ 2 ≤ ws.length) := by
    rintro ⟨htext, -⟩
    have hlist := toUpper_eq_iff.mp htext
    revert hlist
    cases op <;> decide
  have hread : predicateAt names values a (op.text :: b :: ws) =
      some ({ attr := name, op := op.text, v1 := x }, 2) := by
    rw [predicateAt, if_neg ha.not_function, if_neg hbetween, ha.resolves, hb.resolves]
  rw [readPredicates_at ha.not_and hread]
  rfl

theorem readPredicates_between (ha : NameToken names a name) (hb : ValueToken values b x)
    (hc : ValueToken values c y) (ws : List String) :
    readPredicates names values 0 (a :: "BETWEEN" :: b :: "AND" :: c :: ws) =
      { attr := name, op := "between", v1 := x, v2 := y } :: readPredicates names values 0 ws := by
  have hread : predicateAt names values a ("BETWEEN" :: b :: "AND" :: c :: ws) =
      some ({ attr := name, op := "between", v1 := x, v2 := y }, 4) := by
    rw [predicateAt, if_neg ha.not_function, if_pos ⟨toUpper_eq_iff.mpr (by decide), by simp⟩,
      ha.resolves, hb.resolves, List.getD_cons_succ, List.getD_cons_zero, hc.resolves]
  rw [readPredicates_at ha.not_and hread]
  rfl

theorem readPredicates_beginsWith (ha : NameToken names a name) (hb : ValueToken values b x)
    (ws : List String) :
    readPredicates names values 0 ("begins_with" :: a :: b :: ws) =
      { attr := name, op := "begins_with", v1 := x } :: readPredicates names values 0 ws := by
  have hread : predicateAt names values "begins_with" (a :: b :: ws) =
      some ({ attr := name, op := "begins_with", v1 := x }, 2) := by
    rw [predicateAt, if_pos rfl, ha.resolves, hb.resolves]
  have hand : "begins_with".toUpper ≠ "AND" := by
    rw [ne_eq, toUpper_eq_iff]
    decide
  rw [readPredicates_at hand hread]
  rfl

end Reading

/-- A leaf is read as the predicate it says, whatever follows. -/
theorem doSerialize_readPredicates {l : Leaf} (hplain : isPlainName l.lhs = true)
    {p : KeyPredicate} (hp : l.keyPredicate = some p) {st st' : SymbolTable} (hst : Valid st)
    (hst' : Valid st') (hext : Extends (l.doSerialize st).2 st') (ws : List String) :
    readPredicates (namesOf st') (valuesOf st') 0 (conditionWords (l.doSerialize st).1 ++ ws) =
      p :: readPredicates (namesOf st') (valuesOf st') 0 ws := by
  obtain ⟨lhs, predicate⟩ := l
  obtain ⟨hmid, _⟩ := newAttribute_grows lhs st hst
  cases predicate with
  | comparison op rhs =>
      cases hp
      have hname := newAttribute_token hst hst' hplain ((newValue_grows rhs _ hmid).2.trans hext)
      have hvalue := newValue_token hmid rhs hext
      have hgap : conditionWords (" " ++ op.text ++ " ") = [op.text] := by cases op <;> decide
      have hsplit := conditionWords_between (s := " " ++ op.text ++ " ")
        (by cases op <;> decide) (by cases op <;> decide) (newAttribute lhs st).1
        (newValue rhs (newAttribute lhs st).2).1
      have hwords : conditionWords ((newAttribute lhs st).1 ++ " " ++ op.text ++ " " ++
          (newValue rhs (newAttribute lhs st).2).1) =
            [(newAttribute lhs st).1, op.text, (newValue rhs (newAttribute lhs st).2).1] := by
        rw [hgap, hname.word, hvalue.word] at hsplit
        simpa [String.append_assoc] using hsplit
      simp only [Leaf.doSerialize, Alias.bind_apply, Alias.pure_apply, hwords]
      exact readPredicates_comparison hname hvalue op ws
  | between lo hi =>
      cases hp
      obtain ⟨hlo, _⟩ := newValue_grows lo _ hmid
      have hext' := (newValue_grows hi _ hlo).2.trans hext
      have hname := newAttribute_token hst hst' hplain ((newValue_grows lo _ hmid).2.trans hext')
      have hfirst := newValue_token hmid lo hext'
      have hsecond := newValue_token hlo hi hext
      simp only [Leaf.doSerialize, Alias.bind_apply, Alias.pure_apply]
      rw [conditionWords_between (s := " AND ") (by decide) (by decide),
        conditionWords_between (s := " BETWEEN ") (by decide) (by decide), hname.word, hfirst.word,
        hsecond.word, show conditionWords " AND " = ["AND"] by decide,
        show conditionWords " BETWEEN " = ["BETWEEN"] by decide]
      exact readPredicates_between hname hfirst hsecond ws
  | beginsWith start =>
      cases hp
      have hname := newAttribute_token hst hst' hplain ((newValue_grows start _ hmid).2.trans hext)
      have hvalue := newValue_token hmid start hext
      simp only [Leaf.doSerialize, Alias.bind_apply, Alias.pure_apply]
      rw [conditionWords_starting (s := ")") (by decide),
        conditionWords_between (s := ", ") (by decide) (by decide),
        conditionWords_ending (s := "begins_with(") (by decide), hname.word, hvalue.word,
        show conditionWords "begins_with(" = ["begins_with"] by decide,
        show conditionWords ", " = [] by decide, show conditionWords ")" = [] by decide]
      exact readPredicates_beginsWith hname hvalue ws
  | isIn rhs => cases hp
  | contains operand => cases hp
  | attributeType type => cases hp
  | attributeExists => cases hp

/-! ### Reading a key condition -/

/-- What may stand after an atom starts with a break. -/
theorem spell_breaks {ts : Tokens} (h : Infix.closes ts = true) (st : SymbolTable) :
    (spell ts st).1.toList.head?.all isConditionBreak = true := by
  cases ts with
  | nil => rfl
  | cons t ts =>
      cases t with
      | atom l => cases h
      | not => cases h
      | _ => simp [spell]; decide

/-- The words of a conjunction of leaves on plain names are read as the leaves,
in order and with nothing else. -/
theorem spell_readPredicates {ts : Tokens} (hspaced : Infix.spaced ts = true)
    (hconjunction : Token.not ∉ ts ∧ Token.or ∉ ts)
    (hplain : ∀ l ∈ atoms ts, isPlainName l.lhs = true)
    (hkey : ∀ l ∈ atoms ts, l.keyPredicate.isSome = true) {st st' : SymbolTable}
    (hst : Valid st) (hst' : Valid st') (hext : Extends (spell ts st).2 st') :
    readPredicates (namesOf st') (valuesOf st') 0 (conditionWords (spell ts st).1) =
      (atoms ts).filterMap Leaf.keyPredicate := by
  induction ts generalizing st with
  | nil => rfl
  | cons t ts ih =>
      have hconjunction' : Token.not ∉ ts ∧ Token.or ∉ ts :=
        ⟨fun hmem => hconjunction.1 (List.mem_cons_of_mem _ hmem),
          fun hmem => hconjunction.2 (List.mem_cons_of_mem _ hmem)⟩
      cases t with
      | atom l =>
          simp only [Infix.spaced, Bool.and_eq_true] at hspaced
          have hatoms : atoms (.atom l :: ts) =
              l :: atoms ts := rfl
          rw [hatoms] at hplain hkey ⊢
          obtain ⟨p, hp⟩ := Option.isSome_iff_exists.mp (hkey l List.mem_cons_self)
          obtain ⟨hmid, _⟩ := (doSerialize_mints l).grows st hst
          have htail := ih hspaced.2 hconjunction'
            (fun m hm => hplain m (List.mem_cons_of_mem _ hm))
            (fun m hm => hkey m (List.mem_cons_of_mem _ hm)) hmid hext
          simp only [spell, Alias.bind_apply, Alias.pure_apply]
          rw [conditionWords_starting (spell_breaks hspaced.1 _),
            doSerialize_readPredicates (hplain l List.mem_cons_self) hp hst hst'
              (((spell_mints ts).grows _ hmid).2.trans hext), htail, List.filterMap_cons, hp]
      | not => exact absurd List.mem_cons_self hconjunction.1
      | or => exact absurd List.mem_cons_self hconjunction.2
      | and =>
          have htail := ih hspaced hconjunction' hplain hkey hst hext
          simp only [spell, Alias.bind_apply, Alias.pure_apply]
          rw [conditionWords_ending (s := " AND ") (by decide),
            show conditionWords " AND " = ["AND"] by decide, List.singleton_append,
            readPredicates_and]
          exact htail
      | lparen =>
          have htail := ih hspaced hconjunction' hplain hkey hst hext
          simp only [spell, Alias.bind_apply, Alias.pure_apply]
          rw [conditionWords_ending (s := "(") (by decide),
            show conditionWords "(" = [] by decide, List.nil_append]
          exact htail
      | rparen =>
          have htail := ih hspaced hconjunction' hplain hkey hst hext
          simp only [spell, Alias.bind_apply, Alias.pure_apply]
          rw [conditionWords_ending (s := ")") (by decide),
            show conditionWords ")" = [] by decide, List.nil_append]
          exact htail

theorem spaced_part {e : LogicalExpression} (he : Grown e) (q : Part) :
    Infix.spaced (e.part q) = true := by
  cases hv : e.vacant q with
  | true =>
      have hempty := he.part_isEmpty (q := q)
      rw [hv, List.isEmpty_iff] at hempty
      rw [hempty]
      rfl
  | false =>
      obtain ⟨expr, hreads, -⟩ := he.part_denotes hv
      exact hreads.spaced

/-- The key condition of a planned Query under the names and values that the
request carries. -/
theorem parseKeyCondition_query (cmd : SelectCmd) (clause : SourceExpr .or) (plan : QueryKeyPlan)
    (counter : Nat)
    (hpositive : Token.not ∉ clause.build.part (keyConditionPart plan.view))
    (hplain : ∀ l ∈ atoms (clause.build.part (keyConditionPart plan.view)),
      isPlainName l.lhs = true)
    (hkey : ∀ l ∈ atoms (clause.build.part (keyConditionPart plan.view)),
      l.keyPredicate.isSome = true) :
    let request := (queryRequest cmd ⟨clause.build⟩ plan ⟨uniquePrefix counter, 1, 1, ∅, ∅⟩).1
    parseKeyCondition request.keyConditionExpression request.expressionAttributeNames
        request.expressionAttributeValues =
      (atoms (clause.build.part (keyConditionPart plan.view))).filterMap Leaf.keyPredicate := by
  have hgrown := clause.grown_build.1
  obtain ⟨hprojected, _⟩ :=
    (optionalProjection_mints cmd.projection).grows _ (valid_fresh counter)
  obtain ⟨hmid, _⟩ :=
    (spell_mints (clause.build.part (keyConditionPart plan.view))).grows _ hprojected
  obtain ⟨hlast, hext⟩ :=
    (spell_mints (clause.build.part (filterPart plan.view))).grows _ hmid
  have hread := spell_readPredicates (spaced_part hgrown _)
    ⟨hpositive, or_not_mem_part rfl clause.build⟩ hplain hkey hprojected hlast hext
  simp only [queryRequest, Where.queryKeyConditionExpression_eq (w := ⟨clause.build⟩) hgrown,
    Where.queryFilterExpression_eq (w := ⟨clause.build⟩) hgrown, Alias.bind_apply,
    Alias.pure_apply, Alias.get_apply]
  exact hread

end DdbShell
