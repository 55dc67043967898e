import DdbShell.Execute.DataExecutors
import DdbShell.Execute.WellFormed
import DdbShell.Expressions.AliasLaws

/-!
The key attribute in what the engine writes by itself: the condition of a put,
the guard of an update, the check of an EXISTS on the whole item and the
projection of an enumeration. They all go through `newAttribute`, as the paths
of the user do, so a key name is taken apart at its dots and brackets. No text
of a request names an attribute with one of these in its name.
-/

namespace DdbShell

open Lexing (Lexeme lex)
open SymbolTable

/-! ### Names that are one path step -/

/-- Nothing in the name starts another step or a subscript. -/
def isPlainName (name : String) : Bool := name.toList.all fun c => c ≠ '.' && c ≠ '['

theorem isPlainName_iff {name : String} :
    isPlainName name = true ↔ '.' ∉ name.toList ∧ '[' ∉ name.toList := by
  simp only [isPlainName, List.all_eq_true, Bool.and_eq_true, decide_eq_true_eq]
  constructor
  · intro h
    exact ⟨fun hmem => (h _ hmem).1 rfl, fun hmem => (h _ hmem).2 rfl⟩
  · rintro ⟨hdot, hbracket⟩ c hc
    exact ⟨fun heq => hdot (heq ▸ hc), fun heq => hbracket (heq ▸ hc)⟩

/-- The path of the attribute of that name. -/
def topLevel (name : String) : Path := [(name, [])]

theorem segments_plain {name : String} (h : isPlainName name = true) : segments name = [name] := by
  have hdot := (isPlainName_iff.mp h).1
  have hsplit : name.toList.splitOn '.' = [name.toList] := by
    refine List.splitOnP_eq_singleton fun c hc => ?_
    simpa using fun heq : c = '.' => hdot (heq ▸ hc)
  rw [segments, hsplit, List.map_singleton, String.ofList_toList]

/-- The name is all there is in front of a subscript. -/
theorem subscript_plain {name : String} (h : isPlainName name = true) :
    name.toList.takeWhile (· ≠ '[') = name.toList ∧ name.toList.dropWhile (· ≠ '[') = [] := by
  have hbracket := (isPlainName_iff.mp h).2
  have hkeep : ∀ c ∈ name.toList, decide (c ≠ '[') = true := by
    intro c hc
    simpa using fun heq : c = '[' => hbracket (heq ▸ hc)
  exact ⟨List.takeWhile_eq_self_iff.mpr hkeep, List.dropWhile_eq_nil_iff.mpr hkeep⟩

theorem operandPath_plain {name : String} (h : isPlainName name = true) :
    operandPath name = some (topLevel name) := by
  obtain ⟨hname, hrest⟩ := subscript_plain h
  rw [operandPath, segments_plain h, List.mapM_cons, segmentPath, hname, hrest,
    String.ofList_toList]
  rfl

theorem newAttribute_plain {name : String} (h : isPlainName name = true) :
    newAttribute name = newBare name := by
  obtain ⟨hname, hrest⟩ := subscript_plain h
  funext st
  rw [newAttribute, segments_plain h, newSegments, newSegment]
  simp only [hname, hrest, String.ofList_toList, Alias.bind_apply, Alias.pure_apply, if_true,
    newSegments, String.ofList_nil, String.append_empty]
  rfl

/-! ### Names a table can hold -/

/-- No name of the table has a dot or a bracket. -/
def PlainNames (st : SymbolTable) : Prop :=
  ∀ name token : String, st.names[name]? = some token → isPlainName name = true

theorem plainNames_empty (namePrefix : String) : PlainNames ⟨namePrefix, 1, 1, ∅, ∅⟩ := by
  intro name token h
  simp at h

theorem PlainNames.newBare {st : SymbolTable} (hst : PlainNames st) {name : String}
    (h : isPlainName name = true) : PlainNames (newBare name st).2 := by
  intro other token hother
  unfold SymbolTable.newBare at hother
  split at hother
  · simp only [Std.TreeMap.getElem?_insertIfNew] at hother
    split at hother
    · rename_i hnew
      have hsame : name = other := by simpa using hnew.1
      exact hsame ▸ h
    · exact hst _ _ hother
  · exact hst _ _ hother

theorem PlainNames.newSegments {st : SymbolTable} (hst : PlainNames st) (token : String)
    {segments : List String} (h : ∀ s ∈ segments, '.' ∉ s.toList) :
    PlainNames (newSegments token segments st).2 := by
  induction segments generalizing st token with
  | nil => exact hst
  | cons segment rest ih =>
      refine ih ?_ _ fun s hs => h s (List.mem_cons_of_mem _ hs)
      refine hst.newBare (isPlainName_iff.mpr ?_)
      rw [String.toList_ofList]
      constructor
      · intro hmem
        exact h segment List.mem_cons_self ((List.takeWhile_prefix _).subset hmem)
      · intro hmem
        simpa using List.mem_takeWhile_imp hmem

theorem PlainNames.newAttribute {st : SymbolTable} (hst : PlainNames st) (name : String) :
    PlainNames (newAttribute name st).2 := by
  refine hst.newSegments "" fun s hs => ?_
  obtain ⟨piece, hpiece, rfl⟩ := List.mem_map.mp hs
  rw [String.toList_ofList]
  exact notMem_of_mem_splitOn hpiece

/-- Every table of a statement. -/
theorem Mints.plainNames {α : Type} {x : Alias α} (hx : Mints x) {st : SymbolTable}
    (hst : PlainNames st) : PlainNames (x st).2 := by
  have hreach := hx st
  generalize (x st).2 = st' at hreach ⊢
  induction hreach with
  | refl => exact hst
  | tail _ hstep ih =>
      cases hstep with
      | name name => exact ih.newAttribute name
      | value v => exact ih

/-- A token of the request stands for a plain name. -/
theorem PlainNames.resolved {st : SymbolTable} (hst : PlainNames st) {token name : String}
    (h : st.aliases.names token = some name) : isPlainName name = true :=
  hst name token (getNames_eq_some h)

/-! ### Paths a text can read as -/

/-- The words are what a lexer makes of a text. -/
def Worded (ls : List Lexeme) : Prop := ∀ w, .word w ∈ ls → ∀ c ∈ w, charClass c = .word

theorem Worded.tail {l : Lexeme} {ls : List Lexeme} (h : Worded (l :: ls)) : Worded ls :=
  fun w hw => h w (List.mem_cons_of_mem _ hw)

theorem Worded.of_append {ls ms : List Lexeme} (h : Worded (ls ++ ms)) : Worded ms :=
  fun w hw => h w (List.mem_append_right _ hw)

theorem worded_lexemes (text : String) : Worded (lexemes text) :=
  fun _ hw => Lexing.mem_word_of_mem_lex hw

section Reading

variable {st : SymbolTable} (hst : PlainNames st)
include hst

theorem readName_plain {w : List Char} (hw : ∀ c ∈ w, charClass c = .word) {name : String}
    (h : readName st.aliases w = some name) : isPlainName name = true := by
  unfold readName at h
  split at h
  · exact hst.resolved h
  · split at h
    · cases h
      rw [isPlainName_iff, String.toList_ofList]
      constructor
      · intro hmem
        exact absurd (hw _ hmem) (by decide)
      · intro hmem
        exact absurd (hw _ hmem) (by decide)
    · cases h
  · cases h

theorem readTail_plain {name : String} {indices : List Nat} {ls rest : List Lexeme} {p : Path}
    (hls : Worded ls) (hname : isPlainName name = true)
    (h : readTail st.aliases name indices ls = some (p, rest)) :
    (∀ step ∈ p, isPlainName step.1 = true) ∧ Worded rest := by
  fun_induction readTail st.aliases name indices ls generalizing p with
  | case1 name indices w ls n hn ih => exact ih hls.tail.tail.tail hname h
  | case4 name indices w ls next hnext ih =>
      obtain ⟨⟨q, rest'⟩, hq, hsame⟩ := Option.map_eq_some_iff.mp h
      cases hsame
      have hplain := readName_plain hst (hls w (by simp)) hnext
      obtain ⟨hsteps, hrest⟩ := ih hls.tail.tail hplain hq
      refine ⟨?_, hrest⟩
      intro step hstep
      rcases List.mem_cons.mp hstep with rfl | hstep
      · exact hname
      · exact hsteps step hstep
  | case7 name indices ls =>
      cases h
      refine ⟨?_, hls⟩
      intro step hstep
      rw [List.mem_singleton.mp hstep]
      exact hname
  | _ => cases h

/-- No path of a request has a step with a dot or a bracket in its name. -/
theorem readPath_plain {ls rest : List Lexeme} {p : Path} (hls : Worded ls)
    (h : readPath st.aliases ls = some (p, rest)) :
    (∀ step ∈ p, isPlainName step.1 = true) ∧ Worded rest := by
  unfold readPath at h
  split at h
  · rename_i w ls
    split at h
    · rename_i name hname
      exact readTail_plain hst hls.tail (readName_plain hst (hls w (by simp)) hname) h
    · cases h
  · cases h

theorem readPath_topLevel {ls rest : List Lexeme} {name : String} (hls : Worded ls)
    (h : readPath st.aliases ls = some (topLevel name, rest)) :
    isPlainName name = true ∧ Worded rest := by
  obtain ⟨hsteps, hrest⟩ := readPath_plain hst hls h
  exact ⟨hsteps _ (List.mem_singleton_self _), hrest⟩

end Reading

/-! ### Conditions on the existence of an attribute -/

/-- The path whose existence the condition is about. -/
def Condition.existencePath : Condition → Option Path
  | .exists p | .notExists p => some p
  | _ => none

theorem readComparison_existencePath {al : Aliases} {o : Operand} {ls rest : List Lexeme}
    {c : Condition} (h : readComparison al o ls = some (c, rest)) : c.existencePath = none := by
  unfold readComparison at h
  split at h
  · split at h
    · cases h
      rfl
    · cases h
  · split at h
    · obtain ⟨r, -, hsame⟩ := Option.map_eq_some_iff.mp h
      cases hsame
      rfl
    · cases h
  · obtain ⟨r, -, hsame⟩ := Option.map_eq_some_iff.mp h
    cases hsame
    rfl
  · cases h

/-- The path of an existence condition was read off the text. -/
theorem readPath_of_existence {al : Aliases} {ls rest : List Lexeme} {c : Condition} {p : Path}
    (h : readCondition al ls = some (c, rest)) (hc : c.existencePath = some p) :
    ∃ front ls', ls = front ++ ls' ∧ readPath al ls' = some (p, .single ')' :: rest) := by
  have hargument : ∀ {f : Path → Condition} {front ls' : List Lexeme},
      (readArgument al ls').map (fun r => (f r.1, r.2)) = some (c, rest) →
      (∀ q, (f q).existencePath = some q) → ls = front ++ ls' →
      ∃ front ls', ls = front ++ ls' ∧ readPath al ls' = some (p, .single ')' :: rest) := by
    intro f front ls' hread hf hsplit
    obtain ⟨⟨q, rest'⟩, harg, hsame⟩ := Option.map_eq_some_iff.mp hread
    cases hsame
    rw [hf q] at hc
    cases hc
    refine ⟨front, ls', hsplit, ?_⟩
    unfold readArgument at harg
    split at harg
    · cases harg
      assumption
    · cases harg
  have hother : ∀ {f : Path → Operand → Condition} {ls' : List Lexeme},
      (readArguments al ls').map (fun r => (f r.1.1 r.1.2, r.2)) = some (c, rest) →
      (∀ q o, (f q o).existencePath = none) → False := by
    intro f ls' hread hf
    obtain ⟨r, -, hsame⟩ := Option.map_eq_some_iff.mp hread
    cases hsame
    rw [hf] at hc
    cases hc
  unfold readCondition at h
  split at h
  · rename_i w ls'
    have hsplit : (Lexeme.word w :: .single '(' :: ls') = [.word w, .single '('] ++ ls' := rfl
    split at h
    · exact hargument h (fun _ => rfl) hsplit
    · split at h
      · exact hargument h (fun _ => rfl) hsplit
      · split at h
        · exact (hother h fun _ _ => rfl).elim
        · split at h
          · exact (hother h fun _ _ => rfl).elim
          · split at h
            · exact (hother h fun _ _ => rfl).elim
            · cases h
  · split at h
    · rw [readComparison_existencePath h] at hc
      cases hc
    · cases h

/-- A text that asks about a top-level attribute asks about a plain name. -/
theorem readCondition_topLevel {st : SymbolTable} (hst : PlainNames st) {ls rest : List Lexeme}
    (hls : Worded ls) {c : Condition} {name : String} (hc : c.existencePath = some (topLevel name))
    (h : readCondition st.aliases ls = some (c, rest)) : isPlainName name = true := by
  obtain ⟨front, ls', rfl, hread⟩ := readPath_of_existence h hc
  exact (readPath_topLevel hst hls.of_append hread).1

/-- The text is this condition. -/
def Says (al : Aliases) (text : Option String) (c : Condition) : Prop :=
  text.map (fun text => readCondition al (lexemes text)) = some (some (c, []))

/-- The text starts with this condition. -/
def SaysFirst (al : Aliases) (text : Option String) (c : Condition) : Prop :=
  ∃ rest, text.map (fun text => readCondition al (lexemes text)) = some (some (c, rest))

/-- The text ends with this condition. -/
def SaysLast (al : Aliases) (text : String) (c : Condition) : Prop :=
  ∃ front ls, lexemes text = front ++ ls ∧ readCondition al ls = some (c, [])

/-! ### The condition of a put -/

def PutItemIn.emitted (r : PutItemIn) : Emitted :=
  ⟨r.expressionAttributeNames, r.expressionAttributeValues,
    present .condition r.conditionExpression⟩

/-- The table of a put. -/
theorem guardedPut_aliases (cmd : InsertCmd) (row : List Value) (pk aliasPrefix : String) :
    (guardedPutRequest cmd row pk aliasPrefix).emitted.aliases =
      (newAttribute pk ⟨aliasPrefix, 1, 1, ∅, ∅⟩).2.aliases := by
  have hvalues : valuesOf (newAttribute pk ⟨aliasPrefix, 1, 1, ∅, ∅⟩).2 = [] := by
    rw [valuesOf, newAttribute, newSegments_values]
    rfl
  rw [← emitted_aliases _ [], hvalues]
  rfl

theorem guardedPut_condition (cmd : InsertCmd) (row : List Value) (pk aliasPrefix : String) :
    (guardedPutRequest cmd row pk aliasPrefix).conditionExpression =
      some ("attribute_not_exists" ++ "(" ++ (newAttribute pk ⟨aliasPrefix, 1, 1, ∅, ∅⟩).1 ++
        ")") := rfl

theorem says_put_iff (cmd : InsertCmd) (row : List Value) (pk : String) (counter : Nat) :
    Says (guardedPutRequest cmd row pk (uniquePrefix counter)).emitted.aliases
        (guardedPutRequest cmd row pk (uniquePrefix counter)).conditionExpression
        (.notExists (topLevel pk)) ↔
      isPlainName pk = true := by
  have hst := valid_fresh counter
  obtain ⟨hst', _⟩ := newAttribute_grows pk _ hst
  rw [guardedPut_aliases, guardedPut_condition, Says, Option.map_some, Option.some_inj]
  constructor
  · intro h
    exact readCondition_topLevel
      ((newAttribute_mints pk).plainNames (plainNames_empty _)) (worded_lexemes _) rfl h
  · intro hplain
    have hpath := operandPath_plain hplain
    have hsome : (operandPath pk).isSome = true := by rw [hpath]; rfl
    obtain ⟨-, hread⟩ := readCondition_check (show existsFunction .notExists = _ from rfl) hsome
      hst hst' (.refl _) []
    rw [List.append_nil, show pathOf pk = topLevel pk by simp [pathOf, hpath]] at hread
    exact hread

/-- A put that the service lets onto a key that holds an item. -/
def Overwrites (svc : Service) (put : PutItemIn) (pk : String) : Prop :=
  ∃ (doc : Document) (c : Condition), (doc (topLevel pk)).isSome = true ∧
    Says put.emitted.aliases put.conditionExpression c ∧ svc.conditionHolds doc c = true

/-- An item of one attribute. -/
def scalarItem (name : String) (v : Value) : Document :=
  fun p => if p = topLevel name then some v else none

/-- Whatever the condition of a put reads as, it is that some attribute is missing. -/
theorem says_put {cmd : InsertCmd} {row : List Value} {pk aliasPrefix : String} {c : Condition}
    (h : Says (guardedPutRequest cmd row pk aliasPrefix).emitted.aliases
      (guardedPutRequest cmd row pk aliasPrefix).conditionExpression c) :
    ∃ p, c = .notExists p := by
  rw [guardedPut_condition, Says, Option.map_some, Option.some_inj,
    lexemes_starting (s := ")") (by decide), lexemes_ending (by decide),
    show lexemes ("attribute_not_exists" ++ "(") =
      [.word "attribute_not_exists".toList, .single '('] by decide] at h
  simp only [List.cons_append, List.nil_append, readCondition] at h
  rw [if_neg (by decide), if_pos trivial] at h
  obtain ⟨⟨p, rest⟩, -, hsame⟩ := Option.map_eq_some_iff.mp h
  cases hsame
  exact ⟨p, rfl⟩

/-- An INSERT that the service can read never overwrites, exactly when the key
name is plain. -/
theorem overwrites_put_iff (svc : Service) (cmd : InsertCmd) (row : List Value) (pk : String)
    (counter : Nat) {c : Condition}
    (h : Says (guardedPutRequest cmd row pk (uniquePrefix counter)).emitted.aliases
      (guardedPutRequest cmd row pk (uniquePrefix counter)).conditionExpression c) :
    ¬ Overwrites svc (guardedPutRequest cmd row pk (uniquePrefix counter)) pk ↔
      isPlainName pk = true := by
  rw [← says_put_iff cmd row pk counter]
  constructor
  · intro hnever
    obtain ⟨p, rfl⟩ := says_put h
    by_cases hp : p = topLevel pk
    · rw [← hp]
      exact h
    · refine absurd ⟨scalarItem pk default, _, ?_, h, ?_⟩ hnever
      · simp [scalarItem]
      · simp [Service.conditionHolds, scalarItem, hp]
  · rintro hreads ⟨doc, c', hdoc, hread, hholds⟩
    have hsame : c' = .notExists (topLevel pk) := by
      rw [Says, hreads] at hread
      cases hread
      rfl
    rw [hsame] at hholds
    simp only [Service.conditionHolds] at hholds
    cases hitem : doc (topLevel pk) with
    | none =>
        rw [hitem] at hdoc
        cases hdoc
    | some v =>
        rw [hitem] at hholds
        cases hholds

/-! ### The guard of an update -/

/-- The check that the key attribute exists. -/
def existsLeaf (pk : String) : Leaf := ⟨pk, .attributeExists⟩

theorem existsLeaf_plain {pk : String} (h : isPlainName pk = true) :
    (existsLeaf pk).wellFormed = true ∧ (existsLeaf pk).condition = .exists (topLevel pk) := by
  have hpath := operandPath_plain h
  simp [existsLeaf, Leaf.wellFormed, Leaf.condition, Predicate.condition, hpath]

/-- The condition of an UPDATE is spelled guard first. -/
theorem updateTokens_eq {cmd : UpdateCmd} (hupdate : cmd.upsert = false) (pk rk : String) :
    ∃ ts, updateTokens cmd pk rk = .atom (existsLeaf pk) :: ts := by
  rw [updateTokens, hupdate, if_neg (by simp)]
  exact ⟨_, rfl⟩

/-- A spelled guard is read first, whatever comes after it. -/
theorem spell_existsLeaf_reads {pk : String} (h : isPlainName pk = true) (ts : Tokens)
    {st : SymbolTable} (hst : Valid st) :
    ∃ rest, readCondition (spell (.atom (existsLeaf pk) :: ts) st).2.aliases
        (lexemes (spell (.atom (existsLeaf pk) :: ts) st).1) =
      some (.exists (topLevel pk), rest) := by
  obtain ⟨hleaf, hreads⟩ := existsLeaf_plain h
  obtain ⟨hmid, _⟩ := (doSerialize_mints (existsLeaf pk)).grows st hst
  obtain ⟨hend, hext⟩ := (spell_mints ts).grows _ hmid
  have hread := doSerialize_reads hleaf hst hend hext
    (lexemes (spell ts ((existsLeaf pk).doSerialize st).2).1)
  have hclosed : ((existsLeaf pk).doSerialize st).1.toList.getLast?.all opens = true :=
    append_opens (s := ")") (by decide) _
  rw [hreads, ← lexemes_ending hclosed] at hread
  exact ⟨_, hread⟩

theorem saysFirst_update_iff {cmd : UpdateCmd} (hupdate : cmd.upsert = false)
    {clause : Option (SourceExpr .or)} (hclause : cmd.condition = parsedWhere clause)
    (pk rk : String) (counter : Nat) :
    SaysFirst (makeUpdateRequest cmd pk rk ⟨uniquePrefix counter, 1, 1, ∅, ∅⟩).1.emitted.aliases
        (makeUpdateRequest cmd pk rk ⟨uniquePrefix counter, 1, 1, ∅, ∅⟩).1.conditionExpression
        (.exists (topLevel pk)) ↔
      isPlainName pk = true := by
  obtain ⟨ts, hts⟩ := updateTokens_eq hupdate pk rk
  have hexpression := updateExpression_mints cmd.mutation
  have hcondition := updateCondition_mints cmd pk rk
  obtain ⟨hst1, _⟩ := hexpression.grows _ (valid_fresh counter)
  have hplain := hcondition.plainNames
    (hexpression.plainNames (plainNames_empty (uniquePrefix counter)))
  have hne := mt (spell_eq_empty_iff (updateTokens cmd pk rk)
    (updateExpression cmd.mutation ⟨uniquePrefix counter, 1, 1, ∅, ∅⟩).2).mp (by simp [hts])
  rw [makeUpdateRequest_condition hclause, nonEmpty, if_pos hne]
  simp only [SaysFirst, Option.map_some, Option.some_inj, makeUpdateRequest,
    UpdateItemIn.emitted, emitted_aliases, Alias.bind_apply, Alias.pure_apply, Alias.get_apply]
  constructor
  · rintro ⟨rest, hread⟩
    exact readCondition_topLevel hplain (worded_lexemes _) rfl hread
  · intro hname
    rw [updateCondition_eq hclause, hts]
    exact spell_existsLeaf_reads hname ts hst1

/-! ### The check on a whole item -/

theorem saysLast_conditionCheck {mode : ExistsMode} {checkFunc : String}
    (hmode : existsFunction mode = some checkFunc) {projection : List String}
    (hstar : projection = []) (c : SourceExpr .or) (schema : ResolvedKeySchema) (counter : Nat) :
    let built := conditionCheckExpression checkFunc projection ⟨c.build⟩ schema
      ⟨uniquePrefix counter, 1, 1, ∅, ∅⟩
    SaysLast built.2.aliases built.1 (mode.check (topLevel (schema.pk.headD ""))) ↔
      isPlainName (schema.pk.headD "") = true := by
  intro built
  have hfilter : Mints ((Where.mk c.build).queryFilterExpression ⟨schema.pk, schema.rk⟩) :=
    (halves_mint c _).2
  have hchecks := existsChecks_mints checkFunc [schema.pk.headD ""]
  obtain ⟨hst1, _⟩ := hfilter.grows _ (valid_fresh counter)
  obtain ⟨hst2, _⟩ := hchecks.grows _ hst1
  have hplain := hchecks.plainNames (hfilter.plainNames (plainNames_empty (uniquePrefix counter)))
  have hbuilt : built = conditionCheckExpression checkFunc [] ⟨c.build⟩ schema
      ⟨uniquePrefix counter, 1, 1, ∅, ∅⟩ := by rw [← hstar]
  rw [hbuilt]
  simp only [conditionCheckExpression, Alias.bind_apply, Alias.pure_apply, List.isEmpty_nil,
    if_true]
  constructor
  · rintro ⟨front, ls, hsplit, hread⟩
    have hworded : Worded (front ++ ls) := hsplit ▸ worded_lexemes _
    have hpath : (mode.check (topLevel (schema.pk.headD ""))).existencePath =
        some (topLevel (schema.pk.headD "")) := by cases mode <;> rfl
    exact readCondition_topLevel hplain hworded.of_append hpath hread
  · intro hname
    have hpath := operandPath_plain hname
    have hsome : (operandPath (schema.pk.headD "")).isSome = true := by rw [hpath]; rfl
    obtain ⟨-, hread⟩ := readCondition_check hmode hsome hst1 hst2 (.refl _) []
    rw [List.append_nil, pathOf, hpath, Option.getD_some] at hread
    simp only [existsChecks, Alias.bind_apply, Alias.pure_apply, String.append_empty]
    split
    · rename_i hempty
      exact ⟨[], _, by rw [hempty, String.empty_append, List.nil_append], hread⟩
    · exact ⟨_, _, lexemes_ending (append_opens (by decide) _) _, hread⟩

theorem saysLast_check_iff {cmd : SelectCmd} (hstar : cmd.projection = [])
    {clause : Option (SourceExpr .or)} (hclause : cmd.condition = parsedWhere clause)
    {describe : DescribeTable} {schema : ResolvedKeySchema}
    (hschema : getKeySchema describe cmd.table "" = .ok schema) {counter : Nat}
    {check : TransactConditionCheck}
    (hcheck : buildTransactConditionCheck cmd describe (uniquePrefix counter) = .ok check) :
    SaysLast check.emitted.aliases check.conditionExpression
        (cmd.existsMode.check (topLevel (schema.pk.headD ""))) ↔
      isPlainName (schema.pk.headD "") = true := by
  unfold buildTransactConditionCheck at hcheck
  cases hmode : existsFunction cmd.existsMode with
  | none =>
      simp only [hmode] at hcheck
      cases hcheck
  | some checkFunc =>
      simp only [hmode, hschema] at hcheck
      cases clause with
      | none =>
          have hnone : cmd.condition = none := hclause
          simp only [hnone] at hcheck
          cases hcheck
      | some c =>
          have hsome : cmd.condition = some ⟨c.build⟩ := hclause
          simp only [hsome] at hcheck
          cases hcheck
          rw [TransactConditionCheck.emitted, emitted_aliases]
          exact saysLast_conditionCheck hmode hstar c schema counter

/-! ### The projection of an enumeration -/

theorem readPaths_topLevel {st : SymbolTable} (hst : PlainNames st) {n : Nat} {ls : List Lexeme}
    (hls : Worded ls) {names : List String}
    (h : readPaths st.aliases n ls = some (names.map topLevel)) :
    ∀ name ∈ names, isPlainName name = true := by
  induction n generalizing ls names with
  | zero => cases h
  | succ n ih =>
      rw [readPaths] at h
      split at h
      · rename_i p hread
        obtain ⟨name, rfl, hp⟩ := List.map_eq_singleton_iff.mp (Option.some.inj h).symm
        intro other hother
        rw [List.mem_singleton.mp hother]
        rw [← hp] at hread
        exact (readPath_topLevel hst hls hread).1
      · rename_i p rest hread
        obtain ⟨more, hmore, hsame⟩ := Option.map_eq_some_iff.mp h
        cases names with
        | nil => cases hsame
        | cons name names =>
            cases hsame
            obtain ⟨hname, hrest⟩ := readPath_topLevel hst hls hread
            intro other hother
            rcases List.mem_cons.mp hother with rfl | hother
            · exact hname
            · exact ih hrest.tail hmore other hother
      · cases h

/-- The attributes of the base-table key. -/
def baseKeyNames (basePk baseRk : String) : List String :=
  if baseRk = "" then [basePk] else [basePk, baseRk]

theorem baseKeyNames_plain_iff (basePk baseRk : String) :
    (∀ name ∈ baseKeyNames basePk baseRk, isPlainName name = true) ↔
      isPlainName basePk = true ∧ isPlainName baseRk = true := by
  unfold baseKeyNames
  split
  · rename_i hempty
    simp [hempty, isPlainName]
  · simp

def WriteReadPlan.projectionExpression : WriteReadPlan → Option String
  | .query r => r.projectionExpression
  | .scan r => r.projectionExpression

/-- The rows of the read are these attributes, each with its whole value. -/
def Projects (plan : WriteReadPlan) (names : List String) : Prop :=
  plan.projectionExpression.bind (readProjectionExpression plan.emitted.aliases) =
    some (names.map topLevel)

theorem serializeProjection_topLevel_iff (name : String) (names : List String)
    {st st' : SymbolTable} (hst : Valid st) (hst' : Valid st') (hplain : PlainNames st')
    (hext : Extends (serializeProjection (name :: names) st).2 st') :
    readProjectionExpression st'.aliases (serializeProjection (name :: names) st).1 =
        some ((name :: names).map topLevel) ↔
      ∀ other ∈ name :: names, isPlainName other = true := by
  constructor
  · exact readPaths_topLevel hplain (worded_lexemes _)
  · intro hnames
    have hpaths : arePaths (name :: names) = true := by
      rw [arePaths, List.all_eq_true]
      intro other hother
      rw [operandPath_plain (hnames other hother)]
      rfl
    have hread := serializeProjection_reads name names hpaths hst hst' hext _ (Nat.le_refl _)
    rw [readProjectionExpression, hread]
    have hsame : ∀ other ∈ name :: names, pathOf other = topLevel other := by
      intro other hother
      rw [pathOf, operandPath_plain (hnames other hother), Option.getD_some]
    rw [List.map_congr_left hsame]

theorem projects_read_iff (table : String) (index : Option String)
    (clause : Option (SourceExpr .or)) (qplan : Option QueryKeyPlan) (basePk baseRk : String)
    (ratelimit : Bool) (counter : Nat) :
    Projects (buildWriteRead table index (parsedWhere clause) qplan basePk baseRk ratelimit
        ⟨uniquePrefix counter, 1, 1, ∅, ∅⟩).1 (baseKeyNames basePk baseRk) ↔
      isPlainName basePk = true ∧ isPlainName baseRk = true := by
  rw [← baseKeyNames_plain_iff]
  obtain ⟨name, names, hnames⟩ : ∃ name names, baseKeyNames basePk baseRk = name :: names := by
    unfold baseKeyNames
    split
    · exact ⟨_, _, rfl⟩
    · exact ⟨_, _, rfl⟩
  have hproject : projectBaseKeys basePk baseRk = serializeProjection (name :: names) := by
    rw [projectBaseKeys_eq, ← hnames]
    rfl
  rw [hnames]
  have hst := valid_fresh counter
  have hkeys := serializeProjection_mints (name :: names)
  obtain ⟨hst1, _⟩ := hkeys.grows _ hst
  have hplain1 := hkeys.plainNames (plainNames_empty (uniquePrefix counter))
  have hscan : Projects (.scan (writeReadScan table index (parsedWhere clause) basePk baseRk
      ratelimit ⟨uniquePrefix counter, 1, 1, ∅, ∅⟩).1) (name :: names) ↔
        ∀ other ∈ name :: names, isPlainName other = true := by
    have hfilter := optionalScanFilter_mints clause
    obtain ⟨hst2, hext⟩ := hfilter.grows _ hst1
    simp only [Projects, WriteReadPlan.projectionExpression, WriteReadPlan.emitted,
      ScanIn.emitted, writeReadScan, emitted_aliases, hproject, Alias.bind_apply,
      Alias.pure_apply, Alias.get_apply, Option.bind_some]
    exact serializeProjection_topLevel_iff name names hst hst2 (hfilter.plainNames hplain1) hext
  cases clause with
  | none => exact hscan
  | some c =>
      cases qplan with
      | none => exact hscan
      | some plan =>
          obtain ⟨hkey, hfilter⟩ := halves_mint c plan
          obtain ⟨hst2, hext⟩ := hkey.grows _ hst1
          obtain ⟨hst3, hext'⟩ := hfilter.grows _ hst2
          simp only [buildWriteRead, parsedWhere, Option.map_some, Projects,
            WriteReadPlan.projectionExpression, WriteReadPlan.emitted, QueryIn.emitted,
            writeReadQuery, emitted_aliases, hproject, Alias.map_apply, Alias.bind_apply,
            Alias.pure_apply, Alias.get_apply, Option.bind_some]
          exact serializeProjection_topLevel_iff name names hst hst3
            (hfilter.plainNames (hkey.plainNames hplain1)) (hext.trans hext')

/-! ### Every reference to the key -/

/-- What the engine writes about the key of a table resolves to the attributes
of its names, and an INSERT that the service can read never overwrites, exactly
when no key name has a dot or a bracket. -/
theorem key_references_iff (svc : Service) (pk rk : String) (clause : Option (SourceExpr .or))
    (counter : Nat) :
    (∀ (cmd : InsertCmd) (row : List Value),
      let put := guardedPutRequest cmd row pk (uniquePrefix counter)
      (Says put.emitted.aliases put.conditionExpression (.notExists (topLevel pk)) ↔
        isPlainName pk = true) ∧
      ∀ c, Says put.emitted.aliases put.conditionExpression c →
        (¬ Overwrites svc put pk ↔ isPlainName pk = true)) ∧
    (∀ cmd : UpdateCmd, cmd.upsert = false → cmd.condition = parsedWhere clause →
      let update := (makeUpdateRequest cmd pk rk ⟨uniquePrefix counter, 1, 1, ∅, ∅⟩).1
      (SaysFirst update.emitted.aliases update.conditionExpression (.exists (topLevel pk)) ↔
        isPlainName pk = true)) ∧
    (∀ (cmd : SelectCmd) (describe : DescribeTable) (schema : ResolvedKeySchema)
        (check : TransactConditionCheck),
      cmd.projection = [] → cmd.condition = parsedWhere clause →
        getKeySchema describe cmd.table "" = .ok schema → schema.pk.headD "" = pk →
          buildTransactConditionCheck cmd describe (uniquePrefix counter) = .ok check →
            (SaysLast check.emitted.aliases check.conditionExpression
                (cmd.existsMode.check (topLevel pk)) ↔
              isPlainName pk = true)) ∧
    (∀ (table : String) (index : Option String) (qplan : Option QueryKeyPlan) (ratelimit : Bool),
      Projects (buildWriteRead table index (parsedWhere clause) qplan pk rk ratelimit
          ⟨uniquePrefix counter, 1, 1, ∅, ∅⟩).1 (baseKeyNames pk rk) ↔
        isPlainName pk = true ∧ isPlainName rk = true) := by
  refine ⟨?_, ?_, ?_, ?_⟩
  · intro cmd row put
    exact ⟨says_put_iff cmd row pk counter,
      fun c hc => overwrites_put_iff svc cmd row pk counter hc⟩
  · intro cmd hupdate hclause update
    exact saysFirst_update_iff hupdate hclause pk rk counter
  · intro cmd describe schema check hstar hclause hschema hpk hcheck
    rw [← hpk]
    exact saysLast_check_iff hstar hclause hschema hcheck
  · intro table index qplan ratelimit
    exact projects_read_iff table index clause qplan pk rk ratelimit counter

/-- `INSERT INTO t (name) VALUES ("1")` -/
def oneRowInsert (name : String) : InsertCmd :=
  { tableName := "t", columns := [name], rows := [[.S "1"]] }

/-- The key of table `t` is `pk`, `rk`. -/
theorem plainKey_referenced :
    Says (guardedPutRequest (oneRowInsert "pk") [.S "1"] "pk" (uniquePrefix 0)).emitted.aliases
        (guardedPutRequest (oneRowInsert "pk") [.S "1"] "pk" (uniquePrefix 0)).conditionExpression
        (.notExists (topLevel "pk")) ∧
      (∃ update, update = (makeUpdateRequest
          { table := "t", mutation := .remove ["x"], condition := some ⟨groupedOr.build⟩ } "pk" "rk"
          ⟨uniquePrefix 0, 1, 1, ∅, ∅⟩).1 ∧
        SaysFirst update.emitted.aliases update.conditionExpression (.exists (topLevel "pk"))) ∧
      (∃ check, buildTransactConditionCheck
          { table := "t", condition := some ⟨groupedOr.build⟩, existsMode := .notExists } pkRkTable
          (uniquePrefix 0) = .ok check ∧
        SaysLast check.emitted.aliases check.conditionExpression (.notExists (topLevel "pk"))) ∧
      Projects (buildWriteRead "t" none (some ⟨groupedOr.build⟩) none "pk" "rk" false
        ⟨uniquePrefix 0, 1, 1, ∅, ∅⟩).1 ["pk", "rk"] := by
  obtain ⟨hput, hupdate, hcheck, hread⟩ :=
    key_references_iff .verbatim "pk" "rk" (some groupedOr) 0
  refine ⟨?_, ⟨_, rfl, ?_⟩, ?_, ?_⟩
  · exact (hput (oneRowInsert "pk") [.S "1"]).1.mpr (by decide)
  · exact (hupdate _ rfl rfl).mpr (by decide)
  · obtain ⟨check, hbuilt⟩ : ∃ check, buildTransactConditionCheck
        { table := "t", condition := some ⟨groupedOr.build⟩, existsMode := .notExists } pkRkTable
        (uniquePrefix 0) = .ok check := ⟨_, rfl⟩
    exact ⟨check, hbuilt, (hcheck _ _ ⟨["pk"], ["rk"]⟩ _ rfl rfl rfl rfl hbuilt).mpr (by decide)⟩
  · exact (hread "t" none none false).mpr (by decide)

/-- On a table with the key `a.b` the condition of an INSERT is that nothing
is found at `b` inside `a`, so an item with that key is overwritten. -/
theorem dottedKey_overwritten :
    Says (guardedPutRequest (oneRowInsert "a.b") [.S "1"] "a.b" (uniquePrefix 0)).emitted.aliases
        (guardedPutRequest (oneRowInsert "a.b") [.S "1"] "a.b" (uniquePrefix 0)).conditionExpression
        (.notExists [("a", []), ("b", [])]) ∧
      ¬ Says
        (guardedPutRequest (oneRowInsert "a.b") [.S "1"] "a.b" (uniquePrefix 0)).emitted.aliases
        (guardedPutRequest (oneRowInsert "a.b") [.S "1"] "a.b" (uniquePrefix 0)).conditionExpression
        (.notExists (topLevel "a.b")) ∧
      Overwrites .verbatim (guardedPutRequest (oneRowInsert "a.b") [.S "1"] "a.b" (uniquePrefix 0))
        "a.b" := by
  have hreads : Says
      (guardedPutRequest (oneRowInsert "a.b") [.S "1"] "a.b" (uniquePrefix 0)).emitted.aliases
      (guardedPutRequest (oneRowInsert "a.b") [.S "1"] "a.b" (uniquePrefix 0)).conditionExpression
      (.notExists [("a", []), ("b", [])]) := by
    unfold Says
    decide +kernel
  refine ⟨hreads, ?_, ⟨scalarItem "a.b" (.S "1"), _, ?_, hreads, ?_⟩⟩
  · rw [Says, hreads]
    decide
  · decide
  · decide

end DdbShell
