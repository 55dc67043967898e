import DdbShell.Execute.Requests
import DdbShell.Expressions.ConditionText
import Mathlib.Data.List.TakeWhile

/-!
Projection and update expressions read back. A list of paths is always read as
that list. A SET clause is read as its assignments, except for an
`if_not_exists` on the empty name: an empty path marks the form as unused, and
nothing is written in its place.
-/

namespace DdbShell

open Lexing (Lexeme)
open SymbolTable

/-- Every operand text of the list is a document path. -/
def arePaths (attrs : List String) : Bool := attrs.all fun attr => (operandPath attr).isSome

def pathOf (attr : String) : Path := (operandPath attr).getD []

/-! ### Lists of paths -/

theorem serializeProjection_mints (attrs : List String) : Mints (serializeProjection attrs) := by
  match attrs with
  | [] => exact .pure _
  | [attr] => exact newAttribute_mints attr
  | attr :: next :: rest =>
      exact (newAttribute_mints attr).bind fun _ =>
        (serializeProjection_mints (next :: rest)).bind fun _ => .pure _

theorem serializeProjection_reads (attr : String) (attrs : List String)
    (hpaths : arePaths (attr :: attrs) = true) {st st' : SymbolTable} (hst : Valid st)
    (hst' : Valid st') (hext : Extends (serializeProjection (attr :: attrs) st).2 st') (n : Nat)
    (hn : (lexemes (serializeProjection (attr :: attrs) st).1).length ≤ n) :
    readPaths st'.aliases n (lexemes (serializeProjection (attr :: attrs) st).1) =
      some ((attr :: attrs).map pathOf) := by
  induction attrs generalizing attr st n with
  | nil =>
      obtain ⟨p, hp⟩ : ∃ p, operandPath attr = some p := by
        simpa [arePaths, Option.isSome_iff_exists] using hpaths
      have hread := newAttribute_reads hst hst' hp hext (show Stops [] by simp [Stops, startsWith])
      rw [List.append_nil] at hread
      simp only [serializeProjection] at hn ⊢
      cases n with
      | zero =>
          rw [List.eq_nil_of_length_eq_zero (Nat.le_zero.mp hn)] at hread
          cases hread
      | succ n => simp [readPaths, hread, pathOf, hp]
  | cons next rest ih =>
      simp only [arePaths, List.all_cons, Bool.and_eq_true] at hpaths ih
      obtain ⟨p, hp⟩ := Option.isSome_iff_exists.mp hpaths.1
      obtain ⟨hmid, _⟩ := newAttribute_grows attr st hst
      simp only [serializeProjection, Alias.bind_apply, Alias.pure_apply] at hext hn ⊢
      have hext' := ((serializeProjection_mints (next :: rest)).grows _ hmid).2.trans hext
      have hlex := lexemes_gap (s := ", ") (by decide) (newAttribute attr st).1
        (serializeProjection (next :: rest) (newAttribute attr st).2).1
      rw [show lexemes ", " = [.single ','] by decide, List.singleton_append] at hlex
      rw [hlex] at hn ⊢
      have hstop : Stops (.single ',' ::
          lexemes (serializeProjection (next :: rest) (newAttribute attr st).2).1) := by
        simp [Stops, startsWith]
      have hread := newAttribute_reads hst hst' hp hext' hstop
      cases n with
      | zero => simp at hn
      | succ n =>
          have htail := ih next hpaths.2 hmid hext n (by
            simp only [List.length_append, List.length_cons] at hn
            omega)
          simp [readPaths, hread, htail, pathOf, hp]

/-! ### The SET productions -/

/-- An identifier of the lexer. -/
structure UnquotedString where
  text : String
  nonempty : text ≠ ""
  chars : text.toList.all (fun c => c.isAlphanum || c = '_' || c = '-') = true

/-- `use_lhs`, an operand that is no plain value. -/
inductive UseLhs where
  | attr (name : UnquotedString)
  | ifNotExists (path : String) (value : Value)

/-- The alternatives of `set_element`. -/
inductive SetElement where
  | value (lhs : String) (rhs : Value)
  | plus (lhs : String) (source : UseLhs) (rhs : Value)
  | minus (lhs : String) (source : UseLhs) (rhs : Value)
  | copy (lhs : String) (source : UseLhs)

def UseLhs.build : UseLhs → UpdateSetElement
  | .attr name => { lhs := "", rhsAttribute := name.text }
  | .ifNotExists path value => { lhs := "", ifNotExistsLhs := path, ifNotExistsValue := some value }

def SetElement.build : SetElement → UpdateSetElement
  | .value lhs rhs => { lhs := lhs, rhsValue := some rhs }
  | .plus lhs source rhs => { source.build with lhs := lhs, op := "+", rhsValue := some rhs }
  | .minus lhs source rhs => { source.build with lhs := lhs, op := "-", rhsValue := some rhs }
  | .copy lhs source => { source.build with lhs := lhs }

/-- The operand texts of an assignment. -/
def UseLhs.operands : UseLhs → List String
  | .attr _ => []
  | .ifNotExists path _ => [path]

def SetElement.operands : SetElement → List String
  | .value lhs _ => [lhs]
  | .plus lhs source _ | .minus lhs source _ | .copy lhs source => lhs :: source.operands

/-- No `if_not_exists` on the empty name. -/
def UseLhs.written : UseLhs → Bool
  | .attr _ => true
  | .ifNotExists path _ => path ≠ ""

def SetElement.written : SetElement → Bool
  | .value _ _ => true
  | .plus _ source _ | .minus _ source _ | .copy _ source => source.written

/-- What the service makes of the assignment. -/
def UseLhs.operand : UseLhs → SetOperand
  | .attr name => .operand (.path (pathOf name.text))
  | .ifNotExists path value => .ifNotExists (pathOf path) (.value value)

def SetElement.assignment : SetElement → Path × SetValue
  | .value lhs rhs => (pathOf lhs, .operand (.operand (.value rhs)))
  | .plus lhs source rhs => (pathOf lhs, .plus source.operand (.operand (.value rhs)))
  | .minus lhs source rhs => (pathOf lhs, .minus source.operand (.operand (.value rhs)))
  | .copy lhs source => (pathOf lhs, .operand source.operand)

theorem UnquotedString.isPath (name : UnquotedString) : (operandPath name.text).isSome = true := by
  have hchar : ∀ c ∈ name.text.toList, c ≠ '.' ∧ c ≠ '[' := by
    intro c hc
    have hclass := List.all_eq_true.mp name.chars c hc
    constructor <;> (rintro rfl; revert hclass; decide)
  have hsegs : segments name.text = [name.text] := by
    have hsplit : name.text.toList.splitOn '.' = [name.text.toList] := by
      refine List.splitOnP_eq_singleton ?_
      intro c hc
      simpa using (hchar c hc).1
    simp [segments, hsplit]
  have hbare : name.text.toList.dropWhile (· ≠ '[') = [] := by
    rw [List.dropWhile_eq_nil_iff]
    intro c hc
    simpa using (hchar c hc).2
  have hseg : segmentPath name.text = some (name.text, []) := by
    have htake : name.text.toList.takeWhile (· ≠ '[') = name.text.toList := by
      have happend := List.takeWhile_append_dropWhile (p := (· ≠ '[')) (l := name.text.toList)
      rwa [hbare, List.append_nil] at happend
    rw [segmentPath, hbare, htake, String.ofList_toList]
    rfl
  rw [operandPath, hsegs, List.mapM_cons, hseg]
  rfl

/-! ### Assignments -/

theorem readSetOperand_of_readOperand {al : Aliases} {ls rest : List Lexeme} {o : Operand}
    (h : readOperand al ls = some (o, rest)) (hrest : startsWith '(' rest = false) :
    readSetOperand al ls = some (.operand o, rest) := by
  unfold readSetOperand
  split
  · rw [readOperand_call h] at hrest
    cases hrest
  · rw [h]
    rfl

theorem setSource_mints (elem : UpdateSetElement) : Mints (setSource elem) := by
  unfold setSource
  split
  · exact newAttribute_mints _
  · split
    · exact (newAttribute_mints _).bind fun _ => (newValue_mints _).bind fun _ => .pure _
    · exact .pure _

theorem setOperand_mints (v : Option Value) : Mints (setOperand v) := by
  cases v with
  | none => exact .pure _
  | some v => exact newValue_mints v

theorem serializeSetElement_mints (elem : UpdateSetElement) : Mints (serializeSetElement elem) :=
  (newAttribute_mints _).bind fun _ => (setSource_mints _).bind fun _ =>
    (setOperand_mints _).bind fun _ => .pure _

theorem setSource_attr (name : UnquotedString) :
    setSource (UseLhs.attr name).build = newAttribute name.text := if_pos name.nonempty

theorem setSource_ifNotExists {path : String} (h : path ≠ "") (value : Value) (st : SymbolTable) :
    setSource (UseLhs.ifNotExists path value).build st =
      ("if_not_exists(" ++ (newAttribute path st).1 ++ "," ++
        (newValue value (newAttribute path st).2).1 ++ ")",
        (newValue value (newAttribute path st).2).2) := by
  unfold setSource
  have hlhs : (UseLhs.ifNotExists path value).build.ifNotExistsLhs ≠ "" := h
  rw [if_neg (by simp [UseLhs.build]), if_pos hlhs]
  rfl

/-- What a source is spelled as, in front of anything that neither continues a
path nor opens a call. -/
theorem setSource_reads {source : UseLhs} (hoperands : arePaths source.operands = true)
    (hwritten : source.written = true) {st st' : SymbolTable} (hst : Valid st)
    (hst' : Valid st') (hext : Extends (setSource source.build st).2 st') {rest : List Lexeme}
    (hstop : Stops rest) (hopen : startsWith '(' rest = false) :
    readSetOperand st'.aliases (lexemes (setSource source.build st).1 ++ rest) =
      some (source.operand, rest) := by
  cases source with
  | attr name =>
      obtain ⟨p, hp⟩ := Option.isSome_iff_exists.mp name.isPath
      rw [setSource_attr] at hext ⊢
      have hread := readOperand_of_readPath (newAttribute_reads hst hst' hp hext hstop)
      rw [readSetOperand_of_readOperand hread hopen]
      simp [UseLhs.operand, pathOf, hp]
  | ifNotExists path value =>
      have hne : path ≠ "" := by simpa [UseLhs.written] using hwritten
      obtain ⟨p, hp⟩ : ∃ p, operandPath path = some p := by
        simpa [arePaths, UseLhs.operands, Option.isSome_iff_exists] using hoperands
      rw [setSource_ifNotExists hne] at hext ⊢
      have hargs := readArguments_spelled hst hst' hp value hext rest
      rw [lexemes_starting (s := ")") (by decide), lexemes_gap (s := ",") (by decide),
        lexemes_ending (s := "if_not_exists(") (by decide),
        show lexemes ")" = [.single ')'] by decide, show lexemes "," = [.single ','] by decide,
        show lexemes "if_not_exists(" = [.word "if_not_exists".toList, .single '('] by decide]
      simp [readSetOperand, hargs, UseLhs.operand, pathOf, hp]

/-- The empty name writes no source. -/
theorem setSource_unwritten {source : UseLhs} (h : source.written = false) (st : SymbolTable) :
    setSource source.build st = ("", st) := by
  cases source with
  | attr name => cases h
  | ifNotExists path value =>
      have hpath : path = "" := by simpa [UseLhs.written] using h
      simp [setSource, UseLhs.build, hpath]

/-- The lexemes of an assignment around its operator. -/
theorem lexemes_assignment (lhs rhs : String) :
    lexemes (lhs ++ " = " ++ rhs) = lexemes lhs ++ .operator ['='] :: lexemes rhs := by
  rw [lexemes_gap (s := " = ") (by decide), show lexemes " = " = [.operator ['=']] by decide]
  rfl

theorem readAssignment_spelled {st st' : SymbolTable} (hst : Valid st) (hst' : Valid st')
    {lhs : String} (hlhs : (operandPath lhs).isSome = true)
    (hext : Extends (newAttribute lhs st).2 st') (ls : List Lexeme) :
    readAssignment st'.aliases (lexemes (newAttribute lhs st).1 ++ .operator ['='] :: ls) =
      (readSetValue st'.aliases ls).map fun r => ((pathOf lhs, r.1), r.2) := by
  obtain ⟨p, hp⟩ := Option.isSome_iff_exists.mp hlhs
  have hstop : Stops (.operator ['='] :: ls) := by simp [Stops, startsWith]
  rw [readAssignment, newAttribute_reads hst hst' hp hext hstop]
  simp [pathOf, hp]

/-- What follows an assignment: nothing, or a comma. -/
def EndsAssignment (rest : List Lexeme) : Prop := rest = [] ∨ ∃ more, rest = .single ',' :: more

theorem readSetValue_of_readSetOperand {al : Aliases} {ls rest : List Lexeme} {o : SetOperand}
    (h : readSetOperand al ls = some (o, rest)) (hend : EndsAssignment rest) :
    readSetValue al ls = some (.operand o, rest) := by
  rw [readSetValue, h]
  obtain rfl | ⟨more, rfl⟩ := hend <;> rfl

/-- An operator or a comma starts no value. -/
theorem readSetValue_single (al : Aliases) (c : Char) (ls : List Lexeme) :
    readSetValue al (.single c :: ls) = none := by
  simp [readSetValue, readSetOperand, readOperand, readPath]

theorem EndsAssignment.stops {rest : List Lexeme} (h : EndsAssignment rest) :
    Stops rest ∧ startsWith '(' rest = false := by
  obtain rfl | ⟨more, rfl⟩ := h <;> simp [Stops, startsWith]

/-- The right-hand side with an operator, `c` being `+` or `-`. -/
theorem readSetValue_operator {source : UseLhs} (hoperands : arePaths source.operands = true)
    {st st' : SymbolTable} (hst : Valid st) (hst' : Valid st') (rhs : Value)
    (hext : Extends (newValue rhs (setSource source.build st).2).2 st') {rest : List Lexeme}
    (hend : EndsAssignment rest) {c : Char} (hc : c = '+' ∨ c = '-') :
    readSetValue st'.aliases (lexemes (setSource source.build st).1 ++ .single c ::
        (lexemes (newValue rhs (setSource source.build st).2).1 ++ rest)) =
      if source.written then
        some (if c = '+' then .plus source.operand (.operand (.value rhs))
          else .minus source.operand (.operand (.value rhs)), rest)
      else none := by
  obtain ⟨hmid, _⟩ := (setSource_mints source.build).grows st hst
  have hvalue := readSetOperand_of_readOperand (newValue_reads hmid rhs hext rest) hend.stops.2
  cases hw : source.written with
  | true =>
      have hext' := (newValue_grows rhs _ hmid).2.trans hext
      have hstop : Stops (.single c ::
          (lexemes (newValue rhs (setSource source.build st).2).1 ++ rest)) := by
        rcases hc with rfl | rfl <;> simp [Stops, startsWith]
      have hsource := setSource_reads hoperands hw hst hst' hext' hstop
        (by rcases hc with rfl | rfl <;> rfl)
      rcases hc with rfl | rfl <;> simp [readSetValue, hsource, hvalue]
  | false =>
      rw [setSource_unwritten hw]
      exact readSetValue_single _ c _

/-- An assignment with an operator. -/
theorem operatorAssignment_reads {lhs : String} (hlhs : (operandPath lhs).isSome = true)
    {source : UseLhs} (hoperands : arePaths source.operands = true) (rhs : Value)
    {st st' : SymbolTable} (hst : Valid st) (hst' : Valid st') {c : Char} (hc : c = '+' ∨ c = '-')
    (hext : Extends (newValue rhs (setSource source.build (newAttribute lhs st).2).2).2 st')
    {rest : List Lexeme} (hend : EndsAssignment rest) :
    readAssignment st'.aliases (lexemes ((newAttribute lhs st).1 ++ " = " ++
        (setSource source.build (newAttribute lhs st).2).1 ++ String.singleton c ++
        (newValue rhs (setSource source.build (newAttribute lhs st).2).2).1) ++ rest) =
      if source.written then
        some ((pathOf lhs, if c = '+' then .plus source.operand (.operand (.value rhs))
          else .minus source.operand (.operand (.value rhs))), rest)
      else none := by
  obtain ⟨hmid, _⟩ := newAttribute_grows lhs st hst
  obtain ⟨hsource, hext''⟩ := (setSource_mints source.build).grows _ hmid
  have hext' := hext''.trans ((newValue_grows rhs _ hsource).2.trans hext)
  have hlex : ∀ a b d : String, lexemes (a ++ " = " ++ b ++ String.singleton c ++ d) =
      lexemes a ++ .operator ['='] :: (lexemes b ++ .single c :: lexemes d) := by
    intro a b d
    have hgap : isGap (String.singleton c) = true := by rcases hc with rfl | rfl <;> decide
    have hsingle : lexemes (String.singleton c) = [.single c] := by
      rcases hc with rfl | rfl <;> decide
    rw [lexemes_gap hgap, lexemes_assignment, hsingle]
    simp
  rw [hlex, List.append_assoc, List.cons_append, List.append_assoc, List.cons_append,
    readAssignment_spelled hst hst' hlhs hext',
    readSetValue_operator hoperands hmid hst' rhs hext hend hc]
  split <;> rfl

/-- An assignment is read back, unless its source was not written. -/
theorem serializeSetElement_reads (e : SetElement) (hpaths : arePaths e.operands = true)
    {st st' : SymbolTable} (hst : Valid st) (hst' : Valid st')
    (hext : Extends (serializeSetElement e.build st).2 st') {rest : List Lexeme}
    (hend : EndsAssignment rest) :
    readAssignment st'.aliases (lexemes (serializeSetElement e.build st).1 ++ rest) =
      if e.written then some (e.assignment, rest) else none := by
  cases e with
  | value lhs rhs =>
      obtain ⟨hmid, _⟩ := newAttribute_grows lhs st hst
      have hlhs : (operandPath lhs).isSome = true := by
        simpa [arePaths, SetElement.operands] using hpaths
      have htext : serializeSetElement (SetElement.value lhs rhs).build st =
          ((newAttribute lhs st).1 ++ " = " ++ (newValue rhs (newAttribute lhs st).2).1,
            (newValue rhs (newAttribute lhs st).2).2) := by
        simp [serializeSetElement, SetElement.build, setSource, setOperand]
      rw [htext] at hext ⊢
      have hext' := (newValue_grows rhs _ hmid).2.trans hext
      have hvalue := readSetOperand_of_readOperand (newValue_reads hmid rhs hext rest)
        hend.stops.2
      rw [lexemes_assignment, List.append_assoc, List.cons_append,
        readAssignment_spelled hst hst' hlhs hext', readSetValue_of_readSetOperand hvalue hend]
      rfl
  | plus lhs source rhs =>
      simp only [arePaths, SetElement.operands, List.all_cons, Bool.and_eq_true] at hpaths
      exact operatorAssignment_reads hpaths.1 hpaths.2 rhs hst hst' (.inl rfl) hext hend
  | minus lhs source rhs =>
      simp only [arePaths, SetElement.operands, List.all_cons, Bool.and_eq_true] at hpaths
      exact operatorAssignment_reads hpaths.1 hpaths.2 rhs hst hst' (.inr rfl) hext hend
  | copy lhs source =>
      simp only [arePaths, SetElement.operands, List.all_cons, Bool.and_eq_true] at hpaths
      obtain ⟨hmid, _⟩ := newAttribute_grows lhs st hst
      have htext : serializeSetElement (SetElement.copy lhs source).build st =
          ((newAttribute lhs st).1 ++ " = " ++ (setSource source.build (newAttribute lhs st).2).1,
            (setSource source.build (newAttribute lhs st).2).2) := by
        have hop : source.build.op = "" ∧ source.build.rhsValue = none := by
          cases source <;> exact ⟨rfl, rfl⟩
        simp only [serializeSetElement, SetElement.build, hop, setOperand, Alias.bind_apply,
          Alias.pure_apply, String.append_empty]
        rfl
      rw [htext] at hext ⊢
      have hext' := ((setSource_mints source.build).grows _ hmid).2.trans hext
      rw [lexemes_assignment, List.append_assoc, List.cons_append,
        readAssignment_spelled hst hst' hpaths.1 hext', SetElement.written]
      cases hw : source.written with
      | true =>
          have hsource := setSource_reads hpaths.2 hw hmid hst' hext hend.stops.1 hend.stops.2
          rw [readSetValue_of_readSetOperand hsource hend]
          rfl
      | false =>
          rw [setSource_unwritten hw]
          obtain rfl | ⟨more, rfl⟩ := hend
          · rfl
          · rw [show lexemes "" ++ .single ',' :: more = .single ',' :: more from rfl,
              readSetValue_single]
            rfl

/-! ### Whole update expressions -/

theorem serializeSet_mints (elements : List UpdateSetElement) : Mints (serializeSet elements) := by
  match elements with
  | [] => exact .pure _
  | [elem] => exact serializeSetElement_mints elem
  | elem :: next :: rest =>
      exact (serializeSetElement_mints elem).bind fun _ =>
        (serializeSet_mints (next :: rest)).bind fun _ => .pure _

theorem serializeSet_reads (e : SetElement) (es : List SetElement)
    (hpaths : ∀ x ∈ e :: es, arePaths x.operands = true) {st st' : SymbolTable} (hst : Valid st)
    (hst' : Valid st') (hext : Extends (serializeSet ((e :: es).map SetElement.build) st).2 st')
    (n : Nat) (hn : (lexemes (serializeSet ((e :: es).map SetElement.build) st).1).length ≤ n) :
    (readAssignments st'.aliases n
        (lexemes (serializeSet ((e :: es).map SetElement.build) st).1)).isSome =
      (e :: es).all SetElement.written := by
  induction es generalizing e st n with
  | nil =>
      have hread := serializeSetElement_reads e (hpaths e (by simp)) hst hst' hext
        (show EndsAssignment [] from .inl rfl)
      rw [List.append_nil] at hread
      simp only [List.map_cons, List.map_nil, serializeSet] at hn ⊢
      cases n with
      | zero =>
          rw [List.eq_nil_of_length_eq_zero (Nat.le_zero.mp hn)] at hread
          cases hw : e.written <;> simp [readAssignment, readPath, hw, readAssignments] at hread ⊢
      | succ n =>
          rw [readAssignments, hread]
          cases hw : e.written <;> simp [hw]
  | cons next rest ih =>
      obtain ⟨hmid, _⟩ := (serializeSetElement_mints e.build).grows st hst
      simp only [List.map_cons, serializeSet, Alias.bind_apply, Alias.pure_apply] at hext hn ⊢
      have hmore := serializeSet_mints ((next :: rest).map SetElement.build)
      have hext' := (hmore.grows _ hmid).2.trans hext
      have hlex := lexemes_gap (s := ", ") (by decide) (serializeSetElement e.build st).1
        (serializeSet ((next :: rest).map SetElement.build) (serializeSetElement e.build st).2).1
      rw [show lexemes ", " = [.single ','] by decide, List.singleton_append] at hlex
      rw [List.map_cons] at hlex
      rw [hlex] at hn ⊢
      have hread := serializeSetElement_reads e (hpaths e (by simp)) hst hst' hext'
        (.inr ⟨_, rfl⟩ : EndsAssignment (.single ',' :: lexemes
          (serializeSet (next.build :: rest.map SetElement.build)
            (serializeSetElement e.build st).2).1))
      simp only [List.length_append, List.length_cons] at hn
      obtain ⟨n, rfl⟩ : ∃ m, n = m + 1 := ⟨n - 1, by omega⟩
      have htail := ih next (fun x hx => hpaths x (List.mem_cons_of_mem _ hx)) hmid hext n (by
        rw [List.map_cons]
        omega)
      rw [List.map_cons] at htail
      rw [readAssignments, hread, List.all_cons]
      cases hw : e.written with
      | true => simp [htail]
      | false => simp

/-- The mutation of an UPDATE: SET or REMOVE, with at least one entry. -/
inductive UpdateClause where
  | set (first : SetElement) (rest : List SetElement)
  | remove (first : String) (rest : List String)

namespace UpdateClause

def build : UpdateClause → Mutation
  | .set first rest => .set ((first :: rest).map SetElement.build)
  | .remove first rest => .remove (first :: rest)

def operands : UpdateClause → List String
  | .set first rest => (first :: rest).flatMap SetElement.operands
  | .remove first rest => first :: rest

def written : UpdateClause → Bool
  | .set first rest => (first :: rest).all SetElement.written
  | .remove _ _ => true

end UpdateClause

theorem updateExpression_mints (m : Mutation) : Mints (updateExpression m) := by
  cases m with
  | set elements => exact (serializeSet_mints elements).bind fun _ => .pure _
  | remove paths => exact (serializeProjection_mints paths).bind fun _ => .pure _

/-- An update expression is a sentence exactly when every source is written. -/
theorem updateExpression_reads (u : UpdateClause) (hpaths : arePaths u.operands = true)
    {st st' : SymbolTable} (hst : Valid st) (hst' : Valid st')
    (hext : Extends (updateExpression u.build st).2 st') :
    (readUpdateExpression st'.aliases (updateExpression u.build st).1).isSome = u.written := by
  cases u with
  | set first rest =>
      have hoperands : ∀ x ∈ first :: rest, arePaths x.operands = true := by
        intro x hx
        simp only [arePaths, UpdateClause.operands, List.all_flatMap, List.all_eq_true] at hpaths ⊢
        exact hpaths x hx
      have hread := serializeSet_reads first rest hoperands hst hst' hext _ (Nat.le_refl _)
      simp only [updateExpression, UpdateClause.build, Alias.bind_apply, Alias.pure_apply,
        readUpdateExpression]
      rw [lexemes_ending (s := "SET ") (by decide),
        show lexemes "SET " = [.word ['S', 'E', 'T']] by decide]
      simpa [UpdateClause.written] using hread
  | remove first rest =>
      have hread := serializeProjection_reads first rest hpaths hst hst' hext _ (Nat.le_refl _)
      simp only [updateExpression, UpdateClause.build, Alias.bind_apply, Alias.pure_apply,
        readUpdateExpression]
      rw [lexemes_ending (s := "REMOVE ") (by decide),
        show lexemes "REMOVE " = [.word ['R', 'E', 'M', 'O', 'V', 'E']] by decide]
      simp [hread, UpdateClause.written]

/-! ### The condition that goes with it -/

namespace LogicalExpression

mutual

theorem conditionCheck_mints (pk rk : String) (top : Bool) :
    ∀ e : LogicalExpression, Mints (e.doUpdateDeleteConditionCheck pk rk top)
  | .leaf negate _ l => by
      unfold doUpdateDeleteConditionCheck Leaf.doUpdateDeleteConditionCheck
      split
      · exact doSerialize_mints l
      · split
        · exact doSerialize_mints l
        · exact .pure _
  | .and _ _ exprlist => (conditionChecks_mints pk rk top exprlist).bind fun _ => .pure _
  | .or _ _ exprlist => (conditionChecks_mints pk rk false exprlist).bind fun _ => .pure _

theorem conditionChecks_mints (pk rk : String) (top : Bool) :
    ∀ es : List LogicalExpression, Mints (updateDeleteConditionAll pk rk top es)
  | [] => .pure _
  | e :: es => (conditionCheck_mints pk rk top e).bind fun _ =>
      (conditionChecks_mints pk rk top es).bind fun _ => .pure _

end

end LogicalExpression

theorem existsGuard_mints (upsert : Bool) (pk : String) : Mints (existsGuard upsert pk) := by
  unfold existsGuard
  split
  · exact .pure _
  · exact (newAttribute_mints pk).bind fun _ => .pure _

theorem updateCondition_mints (cmd : UpdateCmd) (pk rk : String) :
    Mints (updateCondition cmd pk rk) := by
  unfold updateCondition
  cases cmd.condition with
  | none => exact existsGuard_mints _ _
  | some w =>
      exact (existsGuard_mints _ _).bind fun _ =>
        ((w.root.conditionCheck_mints pk rk true).bind fun _ => .pure _).bind fun _ => .pure _

end DdbShell
