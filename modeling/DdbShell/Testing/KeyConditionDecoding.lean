import DdbShell.Testing.KeyConditionWords

/-!
The in-memory client reads every legal key condition of the engine as the
conditions that the clause puts on the planned key, in the order of the clause.
-/

namespace DdbShell

open Infix (Token)
open LogicalExpression

/-- The conditions of a clause on the attributes of a key. -/
def LogicalExpression.keyConditions (ks : KeySchemaView) (e : LogicalExpression) : List Leaf :=
  e.leaves.filter fun l => ks.pk.contains l.lhs || ks.sk.contains l.lhs

/-- A key condition of the documented form: no NOT, one equality on each
partition key, and at most one comparison, BETWEEN or begins_with on each sort
key. -/
structure LegalKeyCondition (ks : KeySchemaView) (keyCondition : Tokens) : Prop where
  positive : Token.not ∉ keyCondition
  partition : ∀ p ∈ ks.pk, ∃ v,
    (atoms keyCondition).filter (fun l => l.lhs = p) = [⟨p, .comparison .equal v⟩]
  single : ∀ s ∈ ks.sk, (atoms keyCondition).countP (fun l => l.lhs = s) ≤ 1
  documented : ∀ l ∈ atoms keyCondition, l.predicate.ranges = true

theorem Leaf.keyPredicate_isSome {l : Leaf} (h : l.predicate.ranges = true) :
    l.keyPredicate.isSome = true := by
  obtain ⟨lhs, predicate⟩ := l
  cases predicate with
  | comparison op rhs => rfl
  | between lo hi => rfl
  | beginsWith start => rfl
  | isIn rhs => cases h
  | contains operand => cases h
  | attributeType type => cases h
  | attributeExists => cases h

theorem map_some_filterMap {α β : Type} {f : α → Option β} {as : List α}
    (h : ∀ a ∈ as, (f a).isSome = true) : (as.filterMap f).map some = as.map f := by
  induction as with
  | nil => rfl
  | cons a as ih =>
      obtain ⟨b, hb⟩ := Option.isSome_iff_exists.mp (h a List.mem_cons_self)
      rw [List.filterMap_cons_some hb, List.map_cons, List.map_cons, hb,
        ih fun c hc => h c (List.mem_cons_of_mem a hc)]

/-! ### The conditions of the clause -/

theorem countLhs_keyConditions {ks : KeySchemaView} {e : LogicalExpression}
    (hpk : ∀ p ∈ ks.pk, e.countLhs p = 0) (hsk : ∀ s ∈ ks.sk, e.countLhs s = 0) :
    e.keyConditions ks = [] := by
  apply List.filter_eq_nil_iff.mpr
  intro l hl
  have hne : ∀ name, e.countLhs name = 0 → name ≠ l.lhs := fun name hzero heq =>
    countLhs_eq_zero_iff.mp hzero l hl heq.symm
  simp only [Bool.or_eq_true, List.contains_iff_mem, not_or]
  exact ⟨fun hmem => hne l.lhs (hpk l.lhs hmem) rfl, fun hmem => hne l.lhs (hsk l.lhs hmem) rfl⟩

/-- What a plan renders into the key condition is what the clause says about
the planned key. -/
theorem partLeaves_keyCondition {ks : KeySchemaView} {e : LogicalExpression}
    (hsafe : e.querySafe ks = true) :
    e.partLeaves (keyConditionPart ks) = e.keyConditions ks := by
  induction e using induct with
  | leaf negate parens l =>
      have hkept : l.inKeyCondition ks negate =
          (ks.pk.contains l.lhs || ks.sk.contains l.lhs) := by
        rw [Bool.eq_iff_iff, Bool.or_eq_true, List.contains_iff_mem, List.contains_iff_mem]
        exact ⟨lhs_of_inKeyCondition, inKeyCondition_of_safe hsafe⟩
      rw [partLeaves, keyConditions, leaves, List.filter_singleton, ← hkept]
      change (if l.inKeyCondition ks negate = true then [l] else []) = _
      cases l.inKeyCondition ks negate <;> rfl
  | or negate parens es ih =>
      simp only [querySafe, Bool.and_eq_true, List.all_eq_true, decide_eq_true_eq] at hsafe
      rw [countLhs_keyConditions hsafe.1 hsafe.2.1]
      rfl
  | and negate parens es ih =>
      rw [querySafe, querySafeAll_eq_all, List.all_eq_true] at hsafe
      have hall : ∀ es : List LogicalExpression,
          (∀ e ∈ es, e.partLeaves (keyConditionPart ks) = e.keyConditions ks) →
            partLeavesAll (keyConditionPart ks) es =
              (leavesAll es).filter fun l => ks.pk.contains l.lhs || ks.sk.contains l.lhs := by
        intro es hes
        induction es with
        | nil => rfl
        | cons e es ihes =>
            rw [partLeavesAll, leavesAll, List.filter_append, hes e List.mem_cons_self,
              ihes fun e he => hes e (List.mem_cons_of_mem _ he)]
            rfl
      exact hall es fun e he => ih e he (hsafe e he)

/-- The in-memory client reads the rendered key condition of a planned Query as
the conditions of the clause on the planned key, one by one and nothing else. -/
theorem parseKeyCondition_legal (pk rk : List String)
    (hplain : ∀ name ∈ pk ++ rk, '.' ∉ name.toList ∧ '[' ∉ name.toList) (cmd : SelectCmd)
    (clause : SourceExpr .or) (plan : QueryKeyPlan)
    (hplan : (Where.mk clause.build).planQuery pk rk = some plan)
    (hlegal : LegalKeyCondition plan.view (clause.build.part (keyConditionPart plan.view)))
    (counter : Nat) :
    let request := (queryRequest cmd ⟨clause.build⟩ plan ⟨uniquePrefix counter, 1, 1, ∅, ∅⟩).1
    (parseKeyCondition request.keyConditionExpression request.expressionAttributeNames
        request.expressionAttributeValues).map some =
      (clause.build.keyConditions plan.view).map Leaf.keyPredicate := by
  intro request
  obtain ⟨-, hprefix, -, hsafe, hpk⟩ := Where.planQuery_spec hplan
  have hsk : plan.skPrefix <+: rk := (sortKeyPrefix_spec hprefix).2.1
  have hconditions : atoms (clause.build.part (keyConditionPart plan.view)) =
      clause.build.keyConditions plan.view := by
    rw [atoms_part, partLeaves_keyCondition hsafe]
  have hnames : ∀ l ∈ atoms (clause.build.part (keyConditionPart plan.view)),
      isPlainName l.lhs = true := by
    intro l hl
    rw [hconditions, keyConditions, List.mem_filter, Bool.or_eq_true, List.contains_iff_mem,
      List.contains_iff_mem] at hl
    apply isPlainName_iff.mpr
    apply hplain
    rcases hl.2 with hmem | hmem
    · exact List.mem_append_left _ (hpk ▸ hmem)
    · exact List.mem_append_right _ (hsk.subset hmem)
  have hkey : ∀ l ∈ atoms (clause.build.part (keyConditionPart plan.view)),
      l.keyPredicate.isSome = true :=
    fun l hl => Leaf.keyPredicate_isSome (hlegal.documented l hl)
  rw [parseKeyCondition_query cmd clause plan counter hlegal.positive hnames hkey, hconditions]
  rw [hconditions] at hkey
  exact map_some_filterMap hkey

/-- `(pk = 1 AND (rk BETWEEN 2 AND 3)) AND x <> 4` -/
def nestedBetween : SourceExpr .or :=
  .ofAnd (.and (.ofNot (.paren (.ofAnd (.and
      (.ofNot (.element (.comparison "pk" (.op .equal) (.N "1"))))
      (.paren (.ofAnd (.ofNot (.element (.between "rk" (.N "2") (.N "3"))))))))))
    (.element (.comparison "x" (.op .notEqual) (.N "4"))))

theorem parseKeyCondition_nestedBetween :
    let request := (queryRequest { table := "t" } ⟨nestedBetween.build⟩ ⟨["pk"], ["rk"]⟩
      ⟨uniquePrefix 0, 1, 1, ∅, ∅⟩).1
    (parseKeyCondition request.keyConditionExpression request.expressionAttributeNames
        request.expressionAttributeValues).map some =
      [some { attr := "pk", op := "=", v1 := .N "1" },
        some { attr := "rk", op := "between", v1 := .N "2", v2 := .N "3" }] := by
  have hplain : ∀ name ∈ ["pk"] ++ ["rk"], '.' ∉ name.toList ∧ '[' ∉ name.toList := by decide
  have hlegal : LegalKeyCondition ⟨["pk"], ["rk"]⟩
      (nestedBetween.build.part (keyConditionPart ⟨["pk"], ["rk"]⟩)) :=
    ⟨by decide, by simpa using ⟨.N "1", rfl⟩, by decide, by decide⟩
  exact parseKeyCondition_legal ["pk"] ["rk"] hplain { table := "t" } nestedBetween
    ⟨["pk"], ["rk"]⟩ (by decide) hlegal 0

end DdbShell
