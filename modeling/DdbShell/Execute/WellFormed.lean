import DdbShell.Execute.UpdateGuard
import DdbShell.Execute.UpdateText
import DdbShell.Expressions.ScanFilter
import DdbShell.Planner.QuerySplit
import DdbShell.Planner.SelectPlanner

/-!
The expression strings of every request against the service's grammars. With
operands that are document paths, three things can still go wrong: a
parenthesised AND that loses all of its members to the other half of a Query or
to the key leaves `()` behind; the attributes of a condition check are checked
one after the other with no connective; and an `if_not_exists` on the empty
name is not written.
-/

namespace DdbShell

open Infix (Token Denotes)
open LogicalExpression
open SymbolTable

/-! ### What a request carries -/

inductive ExpressionKind where
  | condition
  | projection
  | update
  deriving DecidableEq, Repr

/-- The expressions of a request, with the names and values it gives. -/
structure Emitted where
  expressionAttributeNames : ExpressionAttributeNames
  expressionAttributeValues : ValueMap
  expressions : List (ExpressionKind × String)

/-- A sentence of the grammar for its kind. No grammar has an empty one. -/
def sentence (al : Aliases) : ExpressionKind × String → Bool
  | (.condition, text) => (readConditionExpression al text).any Infix.Expr.full
  | (.projection, text) => (readProjectionExpression al text).isSome
  | (.update, text) => (readUpdateExpression al text).isSome

namespace Emitted

def aliases (r : Emitted) : Aliases :=
  ⟨fun token => r.expressionAttributeNames.lookup token,
    fun token => r.expressionAttributeValues.lookup token⟩

def wellFormed (r : Emitted) : Bool := r.expressions.all (sentence r.aliases)

end Emitted

/-- An optional expression of a request. -/
def present (kind : ExpressionKind) (text : Option String) : List (ExpressionKind × String) :=
  text.toList.map fun text => (kind, text)

def GetItemIn.emitted (r : GetItemIn) : Emitted :=
  ⟨r.expressionAttributeNames, [], present .projection r.projectionExpression⟩

def QueryIn.emitted (r : QueryIn) : Emitted :=
  ⟨r.expressionAttributeNames, r.expressionAttributeValues,
    (.condition, r.keyConditionExpression) :: (present .condition r.filterExpression ++
      present .projection r.projectionExpression)⟩

def ScanIn.emitted (r : ScanIn) : Emitted :=
  ⟨r.expressionAttributeNames, r.expressionAttributeValues,
    present .condition r.filterExpression ++ present .projection r.projectionExpression⟩

def SearchVectorsIn.emitted (r : SearchVectorsIn) : Emitted :=
  ⟨r.expressionAttributeNames, r.expressionAttributeValues,
    present .condition r.searchConditionExpression ++ present .projection r.projectionExpression⟩

def SelectPlan.emitted : SelectPlan → Emitted
  | .getItem r => r.emitted
  | .query r => r.emitted
  | .scan r => r.emitted
  | .searchVectors r => r.emitted

def WriteReadPlan.emitted : WriteReadPlan → Emitted
  | .query r => r.emitted
  | .scan r => r.emitted

def UpdateItemIn.emitted (r : UpdateItemIn) : Emitted :=
  ⟨r.expressionAttributeNames, r.expressionAttributeValues,
    (.update, r.updateExpression) :: present .condition r.conditionExpression⟩

def DeleteItemIn.emitted (r : DeleteItemIn) : Emitted :=
  ⟨r.expressionAttributeNames, r.expressionAttributeValues,
    present .condition r.conditionExpression⟩

def TransactConditionCheck.emitted (r : TransactConditionCheck) : Emitted :=
  ⟨r.expressionAttributeNames, r.expressionAttributeValues,
    [(.condition, r.conditionExpression)]⟩

/-- The aliases of a request are those of the table it was filled from. -/
theorem emitted_aliases (st : SymbolTable) (xs : List (ExpressionKind × String)) :
    (Emitted.mk (namesOf st) (valuesOf st) xs).aliases = st.aliases := by
  simp only [Emitted.aliases, SymbolTable.aliases, namesOf, valuesOf, Maps.lookup_toList]

/-! ### Conditions -/

section Condition

variable {st st' : SymbolTable} {e : LogicalExpression}

theorem sentence_spell {p : Infix.Prec} {ts : Tokens} {f : (Leaf → Bool) → Bool} {full : Bool}
    (hdenotes : Denotes p ts f full) (hleaves : ∀ l, .atom l ∈ ts → l.wellFormed = true)
    (hst : Valid st) (hst' : Valid st') (hext : Extends (spell ts st).2 st') :
    sentence st'.aliases (.condition, (spell ts st).1) = full := by
  obtain ⟨c, hread, hfull, _⟩ := readConditionExpression_spell hdenotes hleaves hst hst' hext
  simp [sentence, hread, hfull]

theorem mem_leaves_of_partLeaves {q : Part} {l : Leaf} (h : l ∈ e.partLeaves q) :
    l ∈ e.leaves := by
  induction e using induct with
  | leaf negate parens l =>
      simp only [partLeaves] at h
      split at h
      · exact h
      · cases h
  | or negate parens es ih =>
      simp only [partLeaves] at h
      split at h
      · exact h
      · cases h
  | and negate parens es ih =>
      rw [partLeaves] at h
      rw [leaves]
      induction es with
      | nil => exact h
      | cons e es ihes =>
          rw [partLeavesAll, List.mem_append] at h
          rw [leavesAll, List.mem_append]
          rcases h with h | h
          · exact .inl (ih e (by simp) h)
          · exact .inr (ihes (fun e he => ih e (List.mem_cons_of_mem _ he)) h)

/-- The kept leaves of a part are leaves of the clause. -/
theorem wellFormed_part (hleaves : ∀ l ∈ e.leaves, l.wellFormed = true) (q : Part) (l : Leaf)
    (hl : .atom l ∈ e.part q) : l.wellFormed = true := by
  refine hleaves l (mem_leaves_of_partLeaves (q := q) ?_)
  rw [← atoms_part]
  exact mem_atoms.mpr hl

/-- A condition that is put into the request only if there is one. -/
theorem sentence_present {ts : Tokens} {full : Bool}
    (h : ts = [] ∧ full = true ∨ ∃ p f, Denotes p ts f full)
    (hleaves : ∀ l, .atom l ∈ ts → l.wellFormed = true) (hst : Valid st) (hst' : Valid st')
    (hext : Extends (spell ts st).2 st') :
    (present .condition (nonEmpty (spell ts st).1)).all (sentence st'.aliases) = full := by
  obtain ⟨rfl, rfl⟩ | ⟨p, f, hdenotes⟩ := h
  · rfl
  · have htext := mt (spell_eq_empty_iff ts st).mp hdenotes.ne_nil
    have hsentence := sentence_spell hdenotes hleaves hst hst' hext
    simp [nonEmpty, htext, present, hsentence]

/-- A part is nothing at all, or reads as a condition. -/
theorem part_nil_or_denotes (hg : Grown e) (q : Part) :
    e.part q = [] ∧ e.partFull q = true ∨ ∃ p f, Denotes p (e.part q) f (e.partFull q) := by
  cases hv : e.vacant q with
  | true =>
      have hnil : e.part q = [] := by simpa [hv] using hg.part_isEmpty (q := q)
      exact .inl ⟨hnil, partFull_of_vacant hv⟩
  | false => exact .inr ⟨_, _, hg.part_denotes hv⟩

theorem sentence_part_present (hg : Grown e) (hleaves : ∀ l ∈ e.leaves, l.wellFormed = true)
    (q : Part) (hst : Valid st) (hst' : Valid st') (hext : Extends (spell (e.part q) st).2 st') :
    (present .condition (nonEmpty (spell (e.part q) st).1)).all (sentence st'.aliases) =
      e.partFull q :=
  sentence_present (part_nil_or_denotes hg q) (wellFormed_part hleaves q) hst hst' hext

/-- A part that has to be there. -/
theorem sentence_part_required (hg : Grown e) (hleaves : ∀ l ∈ e.leaves, l.wellFormed = true)
    (q : Part) (hst : Valid st) (hst' : Valid st') (hext : Extends (spell (e.part q) st).2 st') :
    sentence st'.aliases (.condition, (spell (e.part q) st).1) =
      (!e.vacant q && e.partFull q) := by
  cases hv : e.vacant q with
  | true =>
      have hnil : e.part q = [] := by simpa [hv] using hg.part_isEmpty (q := q)
      simp only [hnil, spell, Alias.pure_apply]
      rfl
  | false =>
      have hsentence := sentence_spell (hg.part_denotes hv) (wellFormed_part hleaves q) hst hst'
        hext
      simp [hsentence]

end Condition

/-! ### Projections -/

theorem optionalProjection_mints (projection : List String) :
    Mints (optionalProjection projection) := by
  unfold optionalProjection
  split
  · exact .pure _
  · exact (serializeProjection_mints projection).map _

theorem sentence_projection {projection : List String} (hne : projection ≠ [])
    (hpaths : arePaths projection = true) {st st' : SymbolTable} (hst : Valid st)
    (hst' : Valid st') (hext : Extends (serializeProjection projection st).2 st') :
    sentence st'.aliases (.projection, (serializeProjection projection st).1) = true := by
  match projection, hne with
  | attr :: attrs, _ =>
      have hread := serializeProjection_reads attr attrs hpaths hst hst' hext _ (Nat.le_refl _)
      simp [sentence, readProjectionExpression, hread]

theorem sentence_optionalProjection {projection : List String}
    (hpaths : arePaths projection = true) {st st' : SymbolTable} (hst : Valid st)
    (hst' : Valid st') (hext : Extends (optionalProjection projection st).2 st') :
    (present .projection (optionalProjection projection st).1).all (sentence st'.aliases) =
      true := by
  cases projection with
  | nil => rfl
  | cons attr attrs =>
      have hsentence := sentence_projection (by simp) hpaths hst hst' hext
      simp [optionalProjection, present, hsentence]

theorem readTail_names {al al' : Aliases} (h : al.names = al'.names) (name : String)
    (indices : List Nat) (ls : List Lexing.Lexeme) :
    readTail al name indices ls = readTail al' name indices ls := by
  have hname : ∀ w, readName al w = readName al' w := by
    intro w
    unfold readName
    rw [h]
  fun_induction readTail al name indices ls <;> simp_all [readTail]

theorem readPath_names {al al' : Aliases} (h : al.names = al'.names) (ls : List Lexing.Lexeme) :
    readPath al ls = readPath al' ls := by
  unfold readPath
  split
  · rename_i w rest
    have hname : readName al w = readName al' w := by
      unfold readName
      rw [h]
    rw [hname]
    cases readName al' w with
    | none => rfl
    | some name => exact readTail_names h name [] rest
  · rfl

/-- A projection has no values in it. -/
theorem sentence_projection_names {al al' : Aliases} (h : al.names = al'.names) (text : String) :
    sentence al (.projection, text) = sentence al' (.projection, text) := by
  have hpaths : ∀ n ls, readPaths al n ls = readPaths al' n ls := by
    intro n
    induction n with
    | zero => exact fun _ => rfl
    | succ n ih =>
        intro ls
        simp only [readPaths, readPath_names h, ih]
  simp only [sentence, readProjectionExpression, hpaths]

/-! ### The clause of a command -/

/-- Every operand of the clause is a document path. -/
def clausePaths (clause : Option (SourceExpr .or)) : Bool :=
  clause.all fun c => c.leaves.all fun l => (operandPath l.lhs).isSome

theorem wellFormed_clause {c : SourceExpr .or} (h : clausePaths (some c) = true) :
    ∀ l ∈ c.build.leaves, l.wellFormed = true := by
  intro l hl
  refine SourceExpr.wellFormed_leaves ?_ hl
  simpa [clausePaths] using h

theorem spell_tokens_sentence {c : SourceExpr .or} (h : clausePaths (some c) = true)
    {st st' : SymbolTable} (hst : Valid st) (hst' : Valid st')
    (hext : Extends (spell c.build.tokens st).2 st') :
    sentence st'.aliases (.condition, (spell c.build.tokens st).1) = true := by
  refine sentence_spell c.grown_build.1.denotes ?_ hst hst' hext
  intro l hl
  refine wellFormed_clause h l ?_
  rw [← atoms_tokens]
  exact mem_atoms.mpr hl

theorem optionalScanFilter_eq (clause : Option (SourceExpr .or)) (st : SymbolTable) :
    optionalScanFilter (parsedWhere clause) st =
      (clause.bind fun c => nonEmpty (spell c.build.tokens st).1,
        (spell (clause.elim [] fun c => c.build.tokens) st).2) := by
  cases clause with
  | none => rfl
  | some c => simp [optionalScanFilter, parsedWhere, Where.scanFilterExpression, serialize_eq]

theorem optionalScanFilter_mints (clause : Option (SourceExpr .or)) :
    Mints (optionalScanFilter (parsedWhere clause)) := by
  intro st
  rw [optionalScanFilter_eq]
  exact spell_mints _ st

/-- A Scan filter is always a sentence. -/
theorem sentence_optionalScanFilter {clause : Option (SourceExpr .or)}
    (h : clausePaths clause = true) {st st' : SymbolTable} (hst : Valid st) (hst' : Valid st')
    (hext : Extends (optionalScanFilter (parsedWhere clause) st).2 st') :
    (present .condition (optionalScanFilter (parsedWhere clause) st).1).all
      (sentence st'.aliases) = true := by
  rw [optionalScanFilter_eq] at hext ⊢
  cases clause with
  | none => rfl
  | some c =>
      have hsentence := spell_tokens_sentence h hst hst' hext
      have htext := mt (spell_eq_empty_iff _ st).mp c.grown_build.1.tokens_ne_nil
      simp [nonEmpty, htext, present, hsentence]

/-! ### Reads -/

/-- What a Query needs: a key condition, and no parenthesised AND that is empty
in either half. -/
def queryKept (w : Where) (plan : QueryKeyPlan) : Bool :=
  !w.root.vacant (keyConditionPart plan.view) &&
    (w.root.partFull (keyConditionPart plan.view) && w.root.partFull (filterPart plan.view))

/-- The two halves of a Query, rendered one after the other. -/
theorem sentence_halves {c : SourceExpr .or} (h : clausePaths (some c) = true)
    (plan : QueryKeyPlan) {st st' : SymbolTable} (hst : Valid st) (hst' : Valid st')
    (hext : Extends ((Where.mk c.build).queryFilterExpression plan
      ((Where.mk c.build).queryKeyConditionExpression plan st).2).2 st') :
    ((ExpressionKind.condition, ((Where.mk c.build).queryKeyConditionExpression plan st).1) ::
        present .condition (nonEmpty ((Where.mk c.build).queryFilterExpression plan
          ((Where.mk c.build).queryKeyConditionExpression plan st).2).1)).all
            (sentence st'.aliases) = queryKept ⟨c.build⟩ plan := by
  have hg := c.grown_build.1
  have hleaves := wellFormed_clause h
  rw [Where.queryKeyConditionExpression_eq hg, Where.queryFilterExpression_eq hg] at hext ⊢
  obtain ⟨hmid, _⟩ := (spell_mints (c.build.part (keyConditionPart plan.view))).grows st hst
  have hext' := ((spell_mints (c.build.part (filterPart plan.view))).grows _ hmid).2.trans hext
  rw [List.all_cons, sentence_part_required hg hleaves _ hst hst' hext',
    sentence_part_present hg hleaves _ hmid hst' hext, queryKept, Bool.and_assoc]

theorem halves_mint (c : SourceExpr .or) (plan : QueryKeyPlan) :
    Mints ((Where.mk c.build).queryKeyConditionExpression plan) ∧
      Mints ((Where.mk c.build).queryFilterExpression plan) := by
  rw [Where.queryKeyConditionExpression_eq c.grown_build.1,
    Where.queryFilterExpression_eq c.grown_build.1]
  exact ⟨spell_mints _, spell_mints _⟩

/-- A request of a projection and a Query's two halves. -/
theorem wellFormed_query {projection : Alias (Option String)} (hgrows : Grows projection)
    {c : SourceExpr .or} (h : clausePaths (some c) = true) (plan : QueryKeyPlan)
    {st : SymbolTable} (hst : Valid st)
    (hprojection : ∀ st', Valid st' → Extends (projection st).2 st' →
      (present .projection (projection st).1).all (sentence st'.aliases) = true) :
    let key := (Where.mk c.build).queryKeyConditionExpression plan (projection st).2
    let filter := (Where.mk c.build).queryFilterExpression plan key.2
    (Emitted.mk (namesOf filter.2) (valuesOf filter.2)
      ((.condition, key.1) :: (present .condition (nonEmpty filter.1) ++
        present .projection (projection st).1))).wellFormed = queryKept ⟨c.build⟩ plan := by
  intro key filter
  obtain ⟨hkey, hfilter⟩ := halves_mint c plan
  obtain ⟨hst1, _⟩ := hgrows st hst
  obtain ⟨hst2, hext2⟩ := hkey.grows _ hst1
  obtain ⟨hst3, hext3⟩ := hfilter.grows _ hst2
  have hhalves := sentence_halves h plan hst1 hst3 (Extends.refl _)
  have hproj := hprojection _ hst3 (hext2.trans hext3)
  rw [Emitted.wellFormed, emitted_aliases, ← List.cons_append, List.all_append, hhalves, hproj,
    Bool.and_true]

/-- A request of a projection and a Scan filter. -/
theorem wellFormed_scan {projection : Alias (Option String)} (hgrows : Grows projection)
    {clause : Option (SourceExpr .or)} (h : clausePaths clause = true)
    {st : SymbolTable} (hst : Valid st)
    (hprojection : ∀ st', Valid st' → Extends (projection st).2 st' →
      (present .projection (projection st).1).all (sentence st'.aliases) = true) :
    let filter := optionalScanFilter (parsedWhere clause) (projection st).2
    (Emitted.mk (namesOf filter.2) (valuesOf filter.2)
      (present .condition filter.1 ++
        present .projection (projection st).1)).wellFormed = true := by
  intro filter
  obtain ⟨hst1, _⟩ := hgrows st hst
  obtain ⟨hst2, hext2⟩ := (optionalScanFilter_mints clause).grows _ hst1
  have hfilter := sentence_optionalScanFilter h hst1 hst2 (Extends.refl _)
  have hproj := hprojection _ hst2 hext2
  rw [Emitted.wellFormed, emitted_aliases, List.all_append, hfilter, hproj, Bool.and_true]

/-- What the access path of a SELECT needs of the clause. -/
def accessKept (cmd : SelectCmd) (schema : ResolvedKeySchema) : Bool :=
  match cmd.condition with
  | none => true
  | some w =>
      (cmd.index.isNone && w.canGetitem schema.pk schema.rk) ||
        (w.planQuery schema.pk schema.rk).all (queryKept w)

def onVectorIndex (cmd : SelectCmd) (describe : DescribeTable) : Bool :=
  match cmd.index, describe cmd.table with
  | some index, .ok described => described.vectorIndexes.any fun vi => vi.indexName = index
  | _, _ => false

/-- What a SELECT needs of the clause: nothing for a vector search, a GetItem
or a Scan. -/
def selectKept (cmd : SelectCmd) (describe : DescribeTable) : Bool :=
  onVectorIndex cmd describe ||
    match getKeySchema describe cmd.table (cmd.index.getD "") with
    | .ok schema => accessKept cmd schema
    | .error _ => true

theorem ok_bind {α β : Type} (a : α) (f : α → Except Error β) : (Except.ok a >>= f) = f a := rfl

section Select

variable {cmd : SelectCmd} (hprojection : arePaths cmd.projection = true)
  {clause : Option (SourceExpr .or)} (hcondition : cmd.condition = parsedWhere clause)
  (hclause : clausePaths clause = true)

include hprojection in
theorem projection_sentences {st : SymbolTable} (hst : Valid st) (st' : SymbolTable)
    (hst' : Valid st') (hext : Extends (optionalProjection cmd.projection st).2 st') :
    (present .projection (optionalProjection cmd.projection st).1).all (sentence st'.aliases) =
      true :=
  sentence_optionalProjection hprojection hst hst' hext

include hprojection hcondition hclause in
theorem scanRequest_wellFormed {st : SymbolTable} (hst : Valid st) :
    (scanRequest cmd st).1.emitted.wellFormed = true := by
  have hscan := wellFormed_scan (optionalProjection_mints cmd.projection).grows hclause hst
    (projection_sentences hprojection hst)
  rw [← hcondition] at hscan
  exact hscan

include hprojection in
theorem getItemRequest_wellFormed (key : KeyMap) {st : SymbolTable} (hst : Valid st) :
    (getItemRequest cmd key st).1.emitted.wellFormed = true := by
  obtain ⟨hst1, _⟩ := (optionalProjection_mints cmd.projection).grows st hst
  have hproj := projection_sentences hprojection hst _ hst1 (Extends.refl _)
  have hnames : (getItemRequest cmd key st).1.emitted.aliases.names =
      (optionalProjection cmd.projection st).2.aliases.names := by
    funext token
    exact Maps.lookup_toList _ token
  simp only [Emitted.wellFormed, List.all_eq_true] at hproj ⊢
  intro x hx
  obtain ⟨text, htext, rfl⟩ := List.mem_map.mp hx
  rw [sentence_projection_names hnames]
  exact hproj _ (List.mem_map.mpr ⟨text, htext, rfl⟩)

include hprojection hcondition hclause in
theorem planAccess_wellFormed (schema : ResolvedKeySchema) {st : SymbolTable} (hst : Valid st) :
    (planAccess cmd schema st).1.emitted.wellFormed = accessKept cmd schema := by
  have hscan := scanRequest_wellFormed hprojection hcondition hclause hst
  cases clause with
  | none =>
      have hnone : cmd.condition = none := hcondition
      simp only [planAccess, accessKept, hnone, Alias.bind_apply, Alias.pure_apply]
      exact hscan
  | some c =>
      have hsome : cmd.condition = some ⟨c.build⟩ := hcondition
      simp only [planAccess, accessKept, hsome]
      split
      · rename_i hget
        rw [hget, Bool.true_or]
        exact getItemRequest_wellFormed hprojection _ hst
      · rename_i hget
        rw [Bool.not_eq_true _ |>.mp hget, Bool.false_or]
        cases hplan : (Where.mk c.build).planQuery schema.pk schema.rk with
        | none => exact hscan
        | some plan =>
            exact wellFormed_query (optionalProjection_mints cmd.projection).grows hclause plan hst
              (projection_sentences hprojection hst)

include hprojection hcondition hclause in
theorem planSearchVectors_wellFormed {index : String} {vi : VectorIndexSchema} {counter : Nat}
    {plan : SelectPlan} (hplan : planSearchVectors cmd index vi (uniquePrefix counter) = .ok plan) :
    plan.emitted.wellFormed = true := by
  have hscan := wellFormed_scan (optionalProjection_mints cmd.projection).grows hclause
    (valid_fresh counter) (projection_sentences hprojection (valid_fresh counter))
  rw [← hcondition] at hscan
  unfold planSearchVectors at hplan
  cases hcheck : checkSearchVector cmd vi with
  | error err =>
      rw [hcheck] at hplan
      cases hplan
  | ok checked =>
      rw [hcheck] at hplan
      cases hplan
      exact hscan

include hprojection hcondition hclause in
/-- Every plan is one of the classic access paths or a vector search. -/
theorem planSelect_wellFormed {describe : DescribeTable} {counter : Nat} {plan : SelectPlan}
    (hplan : planSelect cmd describe (uniquePrefix counter) = .ok plan) :
    plan.emitted.wellFormed = selectKept cmd describe := by
  have haccess : ∀ message, (do
      if cmd.searchVector.isSome then
        throw ⟨.invalidArgument, message⟩
      let schema ← getKeySchema describe cmd.table (cmd.index.getD "")
      return (planAccess cmd schema ⟨uniquePrefix counter, 1, 1, ∅, ∅⟩).1 : Except Error SelectPlan)
        = .ok plan → onVectorIndex cmd describe = false →
      plan.emitted.wellFormed = selectKept cmd describe := by
    intro message hok hvector
    rw [selectKept, hvector, Bool.false_or]
    cases hnear : cmd.searchVector.isSome with
    | true =>
        simp only [hnear, if_true] at hok
        cases hok
    | false =>
        cases hschema : getKeySchema describe cmd.table (cmd.index.getD "") with
        | error err =>
            simp only [hnear, hschema] at hok
            cases hok
        | ok schema =>
            simp only [hnear, hschema] at hok
            cases hok
            exact planAccess_wellFormed hprojection hcondition hclause schema (valid_fresh counter)
  unfold planSelect at hplan
  cases hindex : cmd.index with
  | none =>
      simp only [hindex] at hplan haccess
      exact haccess _ hplan (by simp [onVectorIndex, hindex])
  | some index =>
      simp only [hindex] at hplan haccess
      cases hdescribe : describe cmd.table with
      | error err =>
          simp only [hdescribe] at hplan
          cases hplan
      | ok described =>
          cases hfind : described.vectorIndexes.find? fun vi => vi.indexName = index with
          | none =>
              have hno : onVectorIndex cmd describe = false := by
                simpa [onVectorIndex, hindex, hdescribe] using hfind
              simp only [hdescribe, ok_bind, hfind, pure_bind] at hplan
              exact haccess _ hplan hno
          | some vi =>
              have hyes : onVectorIndex cmd describe = true := by
                have hmem := List.mem_of_find?_eq_some hfind
                have hname := List.find?_some hfind
                simp only [onVectorIndex, hindex, hdescribe, List.any_eq_true]
                exact ⟨vi, hmem, hname⟩
              simp only [hdescribe, ok_bind, hfind, pure_bind] at hplan
              rw [selectKept, hyes, Bool.true_or]
              exact planSearchVectors_wellFormed hprojection hcondition hclause hplan

end Select

theorem projectBaseKeys_eq (basePk baseRk : String) :
    projectBaseKeys basePk baseRk =
      serializeProjection (if baseRk = "" then [basePk] else [basePk, baseRk]) := by
  unfold projectBaseKeys
  split <;> rfl

/-- What an enumeration read needs of the clause: nothing for a Scan. -/
def writeReadKept (condition : Option Where) (qplan : Option QueryKeyPlan) : Bool :=
  match condition, qplan with
  | some w, some plan => queryKept w plan
  | _, _ => true

theorem buildWriteRead_wellFormed (table : String) (index : Option String)
    {clause : Option (SourceExpr .or)} (hclause : clausePaths clause = true)
    (qplan : Option QueryKeyPlan) {basePk baseRk : String}
    (hkeys : arePaths [basePk, baseRk] = true) (ratelimit : Bool) {st : SymbolTable}
    (hst : Valid st) :
    (buildWriteRead table index (parsedWhere clause) qplan basePk baseRk ratelimit
        st).1.emitted.wellFormed = writeReadKept (parsedWhere clause) qplan := by
  have hbase : ∃ projection : List String, projection ≠ [] ∧ arePaths projection = true ∧
      projectBaseKeys basePk baseRk = serializeProjection projection := by
    rw [projectBaseKeys_eq]
    split
    · simp only [arePaths, List.all_cons, Bool.and_eq_true] at hkeys
      exact ⟨[basePk], by simp, by simp [arePaths, hkeys.1], rfl⟩
    · exact ⟨[basePk, baseRk], by simp, hkeys, rfl⟩
  obtain ⟨projection, hne, hpaths, hproject⟩ := hbase
  have hgrows : Grows (some <$> projectBaseKeys basePk baseRk) := by
    rw [hproject]
    exact ((serializeProjection_mints projection).map _).grows
  have hprojection : ∀ st', Valid st' →
      Extends ((some <$> projectBaseKeys basePk baseRk) st).2 st' →
      (present .projection ((some <$> projectBaseKeys basePk baseRk) st).1).all
        (sentence st'.aliases) = true := by
    intro st' hst' hext
    rw [hproject] at hext ⊢
    have hsentence := sentence_projection hne hpaths hst hst' hext
    simp [present, hsentence]
  have hscan := wellFormed_scan hgrows hclause hst hprojection
  cases clause with
  | none => exact hscan
  | some c =>
      cases qplan with
      | none => exact hscan
      | some plan => exact wellFormed_query hgrows hclause plan hst hprojection

/-! ### Writes -/

/-- What the residual condition of a write needs of the clause. -/
def writeKept (condition : Option Where) (pk rk : String) : Bool :=
  condition.all fun w => w.root.partFull (conditionPart pk rk)

theorem existsTokens_denotes (pk : String) :
    Denotes .or (existsTokens pk) (fun v => v ⟨pk, .attributeExists⟩) true :=
  (Denotes.atom _).toOr

/-- The guard in front of any residual reads as one condition. -/
theorem guardTokens_denotes (pk : String) {residual : Tokens} {p : Infix.Prec}
    {f : (Leaf → Bool) → Bool} {full : Bool} (h : Denotes p residual f full) :
    ∃ g, Denotes .or (guardTokens pk residual) g full := by
  have hne := h.ne_nil
  obtain ⟨g, hg⟩ := (existsTokens_denotes pk).append_and_any h.toOr
  refine ⟨g, ?_⟩
  rw [guardTokens, List.isEmpty_eq_false_iff.mpr hne, if_neg (by simp)]
  exact hg

/-- The residual of a clause, with what it needs. -/
theorem residualTokens_spec (clause : Option (SourceExpr .or)) (pk rk : String) :
    residualTokens pk rk (parsedWhere clause) = [] ∧ writeKept (parsedWhere clause) pk rk = true ∨
      ∃ p f, Denotes p (residualTokens pk rk (parsedWhere clause)) f
        (writeKept (parsedWhere clause) pk rk) := by
  cases clause with
  | none => exact .inl ⟨rfl, rfl⟩
  | some c => exact part_nil_or_denotes c.grown_build.1 (conditionPart pk rk)

theorem wellFormed_residual {clause : Option (SourceExpr .or)} (hclause : clausePaths clause = true)
    (pk rk : String) (l : Leaf) (hl : .atom l ∈ residualTokens pk rk (parsedWhere clause)) :
    l.wellFormed = true := by
  cases clause with
  | none => cases hl
  | some c => exact wellFormed_part (wellFormed_clause hclause) _ l hl

theorem guardTokens_spec (pk : String) {residual : Tokens} {full : Bool}
    (h : residual = [] ∧ full = true ∨ ∃ p f, Denotes p residual f full) :
    ∃ p f, Denotes p (guardTokens pk residual) f full := by
  obtain ⟨rfl, rfl⟩ | ⟨p, f, hdenotes⟩ := h
  · exact ⟨_, _, existsTokens_denotes pk⟩
  · obtain ⟨g, hg⟩ := guardTokens_denotes pk hdenotes
    exact ⟨_, g, hg⟩

theorem wellFormed_updateTokens {cmd : UpdateCmd} {clause : Option (SourceExpr .or)}
    (hcondition : cmd.condition = parsedWhere clause) (hclause : clausePaths clause = true)
    {pk : String} (hpk : (operandPath pk).isSome = true) (rk : String) (l : Leaf)
    (hl : .atom l ∈ updateTokens cmd pk rk) : l.wellFormed = true := by
  have hleaves := wellFormed_residual hclause pk rk
  rw [← hcondition] at hleaves
  unfold updateTokens at hl
  split at hl
  · exact hleaves l hl
  · -- the guard's own leaf, or one of the residual
    simp only [guardTokens, existsTokens, List.singleton_append, List.mem_cons, Token.atom.injEq]
      at hl
    rcases hl with rfl | hl
    · simp [Leaf.wellFormed, hpk]
    · split at hl
      · cases hl
      · rcases List.mem_cons.mp hl with hl | hl
        · cases hl
        · exact hleaves l hl

theorem sentence_updateCondition {cmd : UpdateCmd} {clause : Option (SourceExpr .or)}
    (hcondition : cmd.condition = parsedWhere clause) (hclause : clausePaths clause = true)
    {pk : String} (hpk : (operandPath pk).isSome = true) (rk : String) {st st' : SymbolTable}
    (hst : Valid st) (hst' : Valid st') (hext : Extends (updateCondition cmd pk rk st).2 st') :
    (present .condition (nonEmpty (updateCondition cmd pk rk st).1)).all (sentence st'.aliases) =
      writeKept cmd.condition pk rk := by
  have hresidual := residualTokens_spec clause pk rk
  rw [← hcondition] at hresidual
  rw [updateCondition_eq hcondition] at hext ⊢
  refine sentence_present ?_ (wellFormed_updateTokens hcondition hclause hpk rk) hst hst' hext
  unfold updateTokens
  split
  · exact hresidual
  · exact .inr (guardTokens_spec pk hresidual)

theorem makeUpdateRequest_wellFormed {cmd : UpdateCmd} {u : UpdateClause}
    (hmutation : cmd.mutation = u.build) (hoperands : arePaths u.operands = true)
    {clause : Option (SourceExpr .or)} (hcondition : cmd.condition = parsedWhere clause)
    (hclause : clausePaths clause = true) {pk : String} (hpk : (operandPath pk).isSome = true)
    (rk : String) {st : SymbolTable} (hst : Valid st) :
    (makeUpdateRequest cmd pk rk st).1.emitted.wellFormed =
      (u.written && writeKept cmd.condition pk rk) := by
  obtain ⟨hst1, _⟩ := (updateExpression_mints cmd.mutation).grows st hst
  obtain ⟨hst2, hext2⟩ := (updateCondition_mints cmd pk rk).grows _ hst1
  have hcond := sentence_updateCondition hcondition hclause hpk rk hst1 hst2 (Extends.refl _)
  rw [hmutation] at hst1 hst2 hext2 hcond
  have hupdate := updateExpression_reads u hoperands hst hst2 hext2
  simp only [makeUpdateRequest, UpdateItemIn.emitted, Emitted.wellFormed, emitted_aliases,
    Alias.bind_apply, Alias.pure_apply, Alias.get_apply, hmutation, List.all_cons, hcond]
  rw [sentence, hupdate]

theorem deleteCondition_eq {cmd : DeleteCmd} {clause : Option (SourceExpr .or)}
    (hcondition : cmd.condition = parsedWhere clause) (pk rk : String) :
    deleteCondition cmd pk rk = spell (residualTokens pk rk cmd.condition) := by
  funext st
  cases clause with
  | none =>
      have hnone : cmd.condition = none := hcondition
      simp [deleteCondition, hnone, residualTokens, spell]
  | some c =>
      have hsome : cmd.condition = some ⟨c.build⟩ := hcondition
      simp only [deleteCondition, hsome, residualTokens]
      exact (renders_condition pk rk).eq_spell _ c.grown_build.1 st

theorem makeDeleteRequest_wellFormed {cmd : DeleteCmd} {clause : Option (SourceExpr .or)}
    (hcondition : cmd.condition = parsedWhere clause) (hclause : clausePaths clause = true)
    (pk rk : String) {st : SymbolTable} (hst : Valid st) :
    (makeDeleteRequest cmd pk rk st).1.emitted.wellFormed = writeKept cmd.condition pk rk := by
  have hresidual := residualTokens_spec clause pk rk
  have hleaves := wellFormed_residual hclause pk rk
  rw [← hcondition] at hresidual hleaves
  obtain ⟨hst1, _⟩ := (spell_mints (residualTokens pk rk cmd.condition)).grows st hst
  have hcond := sentence_present hresidual hleaves hst hst1 (Extends.refl _)
  simp only [makeDeleteRequest, DeleteItemIn.emitted, Emitted.wellFormed, emitted_aliases,
    Alias.bind_apply, Alias.pure_apply, Alias.get_apply, deleteCondition_eq hcondition, hcond]

/-! ### Condition checks -/

/-- What one existence check is read as. -/
def ExistsMode.check (mode : ExistsMode) (p : Path) : Condition :=
  match mode with
  | .notExists => .notExists p
  | _ => .exists p

theorem existsChecks_mints (checkFunc : String) (attrs : List String) :
    Mints (existsChecks checkFunc attrs) := by
  induction attrs with
  | nil => exact .pure _
  | cons attr attrs ih => exact (newAttribute_mints attr).bind fun _ => ih.bind fun _ => .pure _

theorem readCondition_check {mode : ExistsMode} {checkFunc : String}
    (hmode : existsFunction mode = some checkFunc) {attr : String}
    (hattr : (operandPath attr).isSome = true) {st st' : SymbolTable} (hst : Valid st)
    (hst' : Valid st') (hext : Extends (newAttribute attr st).2 st')
    (rest : List Lexing.Lexeme) :
    lexemes (checkFunc ++ "(" ++ (newAttribute attr st).1 ++ ")") ≠ [] ∧
      readCondition st'.aliases
          (lexemes (checkFunc ++ "(" ++ (newAttribute attr st).1 ++ ")") ++ rest) =
        some (mode.check (pathOf attr), rest) := by
  obtain ⟨p, hp⟩ := Option.isSome_iff_exists.mp hattr
  have harg := readArgument_spelled hst hst' hp hext rest
  have hcall : ∀ f : String, f = "attribute_exists" ∨ f = "attribute_not_exists" →
      lexemes (f ++ "(" ++ (newAttribute attr st).1 ++ ")") =
        .word f.toList :: .single '(' :: (lexemes (newAttribute attr st).1 ++ [.single ')']) := by
    intro f hf
    rw [lexemes_starting (s := ")") (by decide),
      lexemes_ending (append_opens (s := "(") (by decide) f),
      show lexemes ")" = [.single ')'] by decide]
    have hname : lexemes (f ++ "(") = [.word f.toList, .single '('] := by
      rcases hf with rfl | rfl <;> decide
    rw [hname]
    simp
  cases mode with
  | none => cases hmode
  | «exists» =>
      cases hmode
      rw [hcall _ (.inl rfl)]
      refine ⟨by simp, ?_⟩
      simp [readCondition, harg, ExistsMode.check, pathOf, hp]
  | notExists =>
      cases hmode
      rw [hcall _ (.inr rfl)]
      refine ⟨by simp, ?_⟩
      simp [readCondition, harg, ExistsMode.check, pathOf, hp]

/-- The checks are read as conditions next to each other. -/
theorem existsChecks_readAs {mode : ExistsMode} {checkFunc : String}
    (hmode : existsFunction mode = some checkFunc) {attrs : List String}
    (hattrs : arePaths attrs = true) {st st' : SymbolTable} (hst : Valid st) (hst' : Valid st')
    (hext : Extends (existsChecks checkFunc attrs st).2 st') :
    ReadAs st'.aliases (lexemes (existsChecks checkFunc attrs st).1)
      (attrs.map fun attr => .atom (mode.check (pathOf attr))) := by
  induction attrs generalizing st with
  | nil => exact .nil
  | cons attr attrs ih =>
      simp only [arePaths, List.all_cons, Bool.and_eq_true] at hattrs
      obtain ⟨hmid, _⟩ := newAttribute_grows attr st hst
      have htail := ih hattrs.2 hmid hext
      have hext' := ((existsChecks_mints checkFunc attrs).grows _ hmid).2.trans hext
      obtain ⟨hne, hread⟩ := readCondition_check hmode hattrs.1 hst hst' hext'
        (lexemes (existsChecks checkFunc attrs (newAttribute attr st).2).1)
      simp only [existsChecks, Alias.bind_apply, Alias.pure_apply]
      rw [lexemes_ending (append_opens (by decide) _)]
      exact .atom hread hne htail

/-- A condition followed by one check is one condition, and by several none. -/
theorem parse_checks {ts : List (Token Condition)} {full : Bool}
    (h : ts = [] ∧ full = true ∨ ∃ p f, Denotes p ts f full) (c : Condition)
    (cs : List Condition) :
    (Infix.parse ((if ts.isEmpty then [] else ts ++ [.and]) ++ (c :: cs).map .atom)).any
      Infix.Expr.full = (full && cs.isEmpty) := by
  cases cs with
  | cons d ds =>
      rw [List.map_cons, List.map_cons, Infix.parse_adjacent]
      simp
  | nil =>
      have hatom : Denotes .or [.atom c] (fun v => v c) true := (Denotes.atom c).toOr
      have hdenotes : ∃ g, Denotes .or
          ((if ts.isEmpty then [] else ts ++ [.and]) ++ [.atom c]) g full := by
        obtain ⟨rfl, rfl⟩ | ⟨p, f, hts⟩ := h
        · exact ⟨_, hatom⟩
        · obtain ⟨g, hg⟩ := hts.toOr.append_and_any hatom
          refine ⟨g, ?_⟩
          have hne : ts.isEmpty = false := List.isEmpty_eq_false_iff.mpr hts.ne_nil
          simpa [hne] using hg
      obtain ⟨g, e, hreads, _, hfull⟩ := hdenotes
      rw [List.map_singleton, Infix.parse_eq_some_iff.mpr hreads]
      simp [hfull]

/-- What a condition check needs: one check at most, and no parenthesised AND
of key predicates alone. -/
def checkKept (cmd : SelectCmd) (schema : ResolvedKeySchema) : Bool :=
  cmd.projection.length ≤ 1 &&
    cmd.condition.all fun w => w.root.partFull (filterPart ⟨schema.pk, schema.rk⟩)

/-- The residual filter in front of the checks. -/
theorem conditionCheck_readAs {mode : ExistsMode} {checkFunc : String}
    (hmode : existsFunction mode = some checkFunc) {attrs : List String}
    (hattrs : arePaths attrs = true) {ts : Tokens} {full : Bool}
    (h : ts = [] ∧ full = true ∨ ∃ p f, Denotes p ts f full)
    (hleaves : ∀ l, .atom l ∈ ts → l.wellFormed = true) {st : SymbolTable} (hst : Valid st) :
    ReadAs (existsChecks checkFunc attrs (spell ts st).2).2.aliases
      (lexemes ((if (spell ts st).1 = "" then (spell ts st).1 else (spell ts st).1 ++ " AND ") ++
        (existsChecks checkFunc attrs (spell ts st).2).1))
      ((if (ts.map (Token.map Leaf.condition)).isEmpty then []
          else ts.map (Token.map Leaf.condition) ++ [.and]) ++
        (attrs.map fun attr => mode.check (pathOf attr)).map .atom) := by
  obtain ⟨hst1, _⟩ := (spell_mints ts).grows st hst
  obtain ⟨hst2, hext2⟩ := (existsChecks_mints checkFunc attrs).grows _ hst1
  have hchecks := existsChecks_readAs hmode hattrs hst1 hst2 (Extends.refl _)
  rw [List.map_map]
  obtain ⟨rfl, -⟩ | ⟨p, f, hdenotes⟩ := h
  · exact hchecks
  · have htext := mt (spell_eq_empty_iff ts st).mp hdenotes.ne_nil
    obtain ⟨e, hreads, _⟩ := hdenotes
    have hne := hreads.ne_nil
    have hread := spell_readAs hleaves hreads.spaced hst hst2 hext2 hchecks.and
    rw [if_neg htext, lexemes_gap (s := " AND ") (by decide),
      show lexemes " AND " = [.word "AND".toList] by decide]
    simpa [hne, Function.comp_def] using hread

theorem sentence_conditionCheck {mode : ExistsMode} {checkFunc : String}
    (hmode : existsFunction mode = some checkFunc) {projection : List String}
    (hprojection : arePaths projection = true) {c : SourceExpr .or}
    (hclause : clausePaths (some c) = true) {schema : ResolvedKeySchema}
    (hpk : (operandPath (schema.pk.headD "")).isSome = true) {st : SymbolTable}
    (hst : Valid st) :
    sentence (conditionCheckExpression checkFunc projection ⟨c.build⟩ schema st).2.aliases
        (.condition, (conditionCheckExpression checkFunc projection ⟨c.build⟩ schema st).1) =
      (c.build.partFull (filterPart ⟨schema.pk, schema.rk⟩) && projection.length ≤ 1) := by
  have hg := c.grown_build.1
  have hattrs : ∃ attr attrs, (if projection.isEmpty then [schema.pk.headD ""] else projection) =
      attr :: attrs ∧ arePaths (attr :: attrs) = true ∧
        attrs.isEmpty = decide (projection.length ≤ 1) := by
    cases projection with
    | nil => exact ⟨_, [], rfl, by simpa [arePaths] using hpk, rfl⟩
    | cons attr attrs => exact ⟨attr, attrs, rfl, hprojection, by cases attrs <;> simp⟩
  obtain ⟨attr, attrs, hlist, hpaths, hlength⟩ := hattrs
  have hpart := part_nil_or_denotes hg (filterPart ⟨schema.pk, schema.rk⟩)
  have hread := conditionCheck_readAs hmode hpaths hpart
    (wellFormed_part (wellFormed_clause hclause) _) hst
  have hmapped : (c.build.part (filterPart ⟨schema.pk, schema.rk⟩)).map
      (Token.map Leaf.condition) = [] ∧
        c.build.partFull (filterPart ⟨schema.pk, schema.rk⟩) = true ∨
      ∃ p f, Denotes p ((c.build.part (filterPart ⟨schema.pk, schema.rk⟩)).map
        (Token.map Leaf.condition)) f (c.build.partFull (filterPart ⟨schema.pk, schema.rk⟩)) := by
    obtain ⟨hnil, hfull⟩ | ⟨p, f, hdenotes⟩ := hpart
    · exact .inl ⟨by rw [hnil, List.map_nil], hfull⟩
    · exact .inr ⟨p, _, hdenotes.map Leaf.condition⟩
  simp only [conditionCheckExpression, Alias.bind_apply, Alias.pure_apply, hlist,
    Where.queryFilterExpression_eq hg, QueryKeyPlan.view, sentence]
  rw [readConditionExpression_of_readAs hread, List.map_cons, parse_checks hmapped,
    List.isEmpty_map, hlength]

/-- A condition check of a described table. -/
theorem buildTransactConditionCheck_wellFormed {cmd : SelectCmd}
    (hprojection : arePaths cmd.projection = true) {clause : Option (SourceExpr .or)}
    (hcondition : cmd.condition = parsedWhere clause) (hclause : clausePaths clause = true)
    {describe : DescribeTable} {schema : ResolvedKeySchema}
    (hschema : getKeySchema describe cmd.table "" = .ok schema)
    (hpk : (operandPath (schema.pk.headD "")).isSome = true) {counter : Nat}
    {check : TransactConditionCheck}
    (hcheck : buildTransactConditionCheck cmd describe (uniquePrefix counter) = .ok check) :
    check.emitted.wellFormed = checkKept cmd schema := by
  unfold buildTransactConditionCheck at hcheck
  cases hmode : existsFunction cmd.existsMode with
  | none =>
      simp only [hmode] at hcheck
      cases hcheck
  | some checkFunc =>
      simp only [hmode, hschema] at hcheck
      cases clause with
      | none =>
          have hnone : cmd.condition = none := hcondition
          simp only [hnone] at hcheck
          cases hcheck
      | some c =>
          have hsome : cmd.condition = some ⟨c.build⟩ := hcondition
          simp only [hsome] at hcheck
          cases hcheck
          have hsentence := sentence_conditionCheck hmode hprojection hclause hpk
            (valid_fresh counter)
          simp only [Emitted.wellFormed, TransactConditionCheck.emitted, emitted_aliases,
            List.all_cons, List.all_nil, Bool.and_true, checkKept, hsome, Option.all_some]
          rw [Bool.and_comm]
          exact hsentence

/-! ### Every builder -/

/-- With operands that are document paths, the expressions of every request are
sentences exactly when nothing the request needs was dropped: no parenthesised
AND is rendered empty, a Query has a key condition, every SET source is written,
and a condition check has at most one attribute to check. -/
theorem expressions_wellFormed_iff (clause : Option (SourceExpr .or))
    (hclause : clausePaths clause = true) :
    (∀ (cmd : SelectCmd) (describe : DescribeTable) (counter : Nat) (plan : SelectPlan),
      cmd.condition = parsedWhere clause → arePaths cmd.projection = true →
        planSelect cmd describe (uniquePrefix counter) = .ok plan →
          (plan.emitted.wellFormed = true ↔ selectKept cmd describe = true)) ∧
    (∀ (table : String) (index : Option String) (qplan : Option QueryKeyPlan)
        (basePk baseRk : String) (ratelimit : Bool) (st : SymbolTable),
      arePaths [basePk, baseRk] = true → Valid st →
        ((buildWriteRead table index (parsedWhere clause) qplan basePk baseRk ratelimit
            st).1.emitted.wellFormed = true ↔ writeReadKept (parsedWhere clause) qplan = true)) ∧
    (∀ (cmd : UpdateCmd) (u : UpdateClause) (pk rk : String) (st : SymbolTable),
      cmd.condition = parsedWhere clause → cmd.mutation = u.build →
        arePaths (pk :: u.operands) = true → Valid st →
          ((makeUpdateRequest cmd pk rk st).1.emitted.wellFormed = true ↔
            u.written = true ∧ writeKept cmd.condition pk rk = true)) ∧
    (∀ (cmd : DeleteCmd) (pk rk : String) (st : SymbolTable),
      cmd.condition = parsedWhere clause → Valid st →
        ((makeDeleteRequest cmd pk rk st).1.emitted.wellFormed = true ↔
          writeKept cmd.condition pk rk = true)) ∧
    (∀ (cmd : SelectCmd) (describe : DescribeTable) (schema : ResolvedKeySchema) (counter : Nat)
        (check : TransactConditionCheck),
      cmd.condition = parsedWhere clause →
        arePaths (schema.pk.headD "" :: cmd.projection) = true →
          getKeySchema describe cmd.table "" = .ok schema →
            buildTransactConditionCheck cmd describe (uniquePrefix counter) = .ok check →
              (check.emitted.wellFormed = true ↔ checkKept cmd schema = true)) := by
  refine ⟨?_, ?_, ?_, ?_, ?_⟩
  · intro cmd describe counter plan hcondition hprojection hplan
    rw [planSelect_wellFormed hprojection hcondition hclause hplan]
  · intro table index qplan basePk baseRk ratelimit st hkeys hst
    rw [buildWriteRead_wellFormed table index hclause qplan hkeys ratelimit hst]
  · intro cmd u pk rk st hcondition hmutation hoperands hst
    simp only [arePaths, List.all_cons, Bool.and_eq_true] at hoperands
    rw [makeUpdateRequest_wellFormed hmutation hoperands.2 hcondition hclause hoperands.1 rk hst,
      Bool.and_eq_true]
  · intro cmd pk rk st hcondition hst
    rw [makeDeleteRequest_wellFormed hcondition hclause pk rk hst]
  · intro cmd describe schema counter check hcondition hpaths hschema hcheck
    simp only [arePaths, List.all_cons, Bool.and_eq_true] at hpaths
    rw [buildTransactConditionCheck_wellFormed hpaths.2 hcondition hclause hschema hpaths.1 hcheck]

/-- `pk = 1 AND (x = 2 OR NOT rk = 3)`. -/
def groupedOr : SourceExpr .or :=
  .ofAnd (.and (.ofNot (.element (.comparison "pk" (.op .equal) (.N "1"))))
    (.paren (.or (.ofAnd (.ofNot (.element (.comparison "x" (.op .equal) (.N "2")))))
      (.ofNot (.not (.element (.comparison "rk" (.op .equal) (.N "3"))))))))

def pkRkTable : DescribeTable := fun _ => .ok { keySchema := ⟨["pk"], ["rk"]⟩ }

/-- The UPDATE, DELETE and EXISTS of one clause, all well formed. -/
theorem groupedOr_wellFormed :
    (makeUpdateRequest
        { table := "t", mutation := .set [{ lhs := "x", rhsValue := some (.N "5") }],
          condition := some ⟨groupedOr.build⟩ }
        "pk" "rk" ⟨"aaa", 1, 1, ∅, ∅⟩).1.emitted.wellFormed = true ∧
      (makeDeleteRequest { table := "t", condition := some ⟨groupedOr.build⟩ }
        "pk" "rk" ⟨"aaa", 1, 1, ∅, ∅⟩).1.emitted.wellFormed = true ∧
      (buildWriteRead "t" none (some ⟨groupedOr.build⟩) none "pk" "rk" false
        ⟨"aaa", 1, 1, ∅, ∅⟩).1.emitted.wellFormed = true := by
  obtain ⟨_, hread, hupdate, hdelete, _⟩ :=
    expressions_wellFormed_iff (some groupedOr) (by decide +kernel)
  refine ⟨?_, ?_, ?_⟩
  · exact (hupdate _ (.set (.value "x" (.N "5")) []) "pk" "rk" _ rfl rfl (by decide +kernel)
      (valid_fresh 0)).mpr ⟨by decide, by decide +kernel⟩
  · exact (hdelete _ "pk" "rk" _ rfl (valid_fresh 0)).mpr (by decide +kernel)
  · exact (hread "t" none none "pk" "rk" false _ (by decide +kernel) (valid_fresh 0)).mpr rfl

/-- `(pk = 1 AND rk = 2)`: both predicates are the key. -/
def parenthesisedKey : SourceExpr .or :=
  .ofAnd (.ofNot (.paren (.ofAnd (.and
    (.ofNot (.element (.comparison "pk" (.op .equal) (.N "1"))))
    (.element (.comparison "rk" (.op .equal) (.N "2")))))))

/-- `pk = 1 AND (x = 2 AND y = 3)`. -/
def parenthesisedRest : SourceExpr .or :=
  .ofAnd (.and (.ofNot (.element (.comparison "pk" (.op .equal) (.N "1"))))
    (.paren (.ofAnd (.and (.ofNot (.element (.comparison "x" (.op .equal) (.N "2"))))
      (.element (.comparison "y" (.op .equal) (.N "3")))))))

/-- DELETE renders the parenthesised key as `()` and nothing else, a Query on
the second clause has the key condition `pk = 1 AND ()`, an EXISTS of two
attributes has two checks next to each other, and `SET x = if_not_exists("", 5)`
has no right-hand side. -/
theorem parenthesisedKey_illFormed :
    (makeDeleteRequest { table := "t", condition := some ⟨parenthesisedKey.build⟩ }
        "pk" "rk" ⟨"aaa", 1, 1, ∅, ∅⟩).1.conditionExpression = some "()" ∧
      (makeDeleteRequest { table := "t", condition := some ⟨parenthesisedKey.build⟩ }
        "pk" "rk" ⟨"aaa", 1, 1, ∅, ∅⟩).1.emitted.wellFormed = false ∧
      ((planSelect { table := "t", condition := some ⟨parenthesisedRest.build⟩ } pkRkTable
        "aaa").toOption.map fun plan => plan.emitted.wellFormed) = some false ∧
      ((buildTransactConditionCheck
        { table := "t", projection := ["x", "y"], existsMode := .exists,
          condition := some ⟨groupedOr.build⟩ } pkRkTable
        "aaa").toOption.map fun check => check.emitted.wellFormed) = some false ∧
      (makeUpdateRequest
        { table := "t",
          mutation := (UpdateClause.set (.copy "x" (.ifNotExists "" (.N "5"))) []).build }
        "pk" "rk" ⟨"aaa", 1, 1, ∅, ∅⟩).1.emitted.wellFormed = false := by
  decide +kernel

end DdbShell
