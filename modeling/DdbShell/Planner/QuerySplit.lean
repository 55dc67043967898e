import DdbShell.Expressions.Atoms
import DdbShell.Expressions.Residual
import DdbShell.Service

/-!
The two halves of a Query. A plan makes every spine leaf legal, so each goes
to exactly one half, and an AND splits into the conjunction of its halves. The
exception is a negated AND in parentheses: its NOT is written around both
halves separately, and even around a half that became `()`.
-/

namespace DdbShell

open Infix (Token truth)
open LogicalExpression

namespace Where

theorem planQuery_spec {w : Where} {pk rk : List String} {plan : QueryKeyPlan}
    (h : w.planQuery pk rk = some plan) :
    (∀ p ∈ pk, w.root.countGudKey p = 1 ∧ w.root.countLhs p = 1) ∧
      sortKeyPrefix w.root false rk = some plan.skPrefix ∧
      (∀ s ∈ plan.skPrefix.dropLast, w.root.countLhs s = 1 ∧ w.root.countGudKey s = 1) ∧
      w.root.querySafe plan.view = true ∧ plan.pk = pk := by
  unfold planQuery at h
  split at h
  · rename_i hpk
    split at h
    · cases h
    · rename_i skPrefix hsk
      split at h
      · rename_i hlead
        split at h
        · rename_i hsafe
          cases h
          simp only [List.all_eq_true, Bool.and_eq_true, decide_eq_true_eq] at hpk hlead
          exact ⟨hpk, hsk, hlead, hsafe, rfl⟩
        · cases h
      · cases h
  · cases h

theorem queryKeyConditionExpression_eq {w : Where} (hg : Grown w.root) (plan : QueryKeyPlan) :
    w.queryKeyConditionExpression plan = spell (w.root.part (keyConditionPart plan.view)) := by
  funext st
  exact (renders_keyCondition plan.view).eq_spell w.root hg st

theorem queryFilterExpression_eq {w : Where} (hg : Grown w.root) (plan : QueryKeyPlan) :
    w.queryFilterExpression plan = spell (w.root.part (filterPart plan.view)) := by
  funext st
  exact (renders_filter plan.view).eq_spell w.root hg st

end Where

namespace LogicalExpression

theorem querySafeAll_eq_all (ks : KeySchemaView) (es : List LogicalExpression) :
    querySafeAll ks es = es.all (querySafe ks) := by
  induction es with
  | nil => rfl
  | cons e es ih => rw [querySafeAll, ih, List.all_cons]

theorem leafQuerySafe_of_spine {ks : KeySchemaView} {e : LogicalExpression}
    (h : e.querySafe ks = true) {s : Bool × Leaf} (hs : s ∈ e.spine) :
    leafQuerySafe ks s.1 s.2 = true := by
  induction e using induct with
  | leaf negate parens l =>
      rw [spine, List.mem_singleton] at hs
      subst hs
      exact h
  | or negate parens es ih => cases hs
  | and negate parens es ih =>
      rw [querySafe, querySafeAll_eq_all, List.all_eq_true] at h
      obtain ⟨e, he, hse⟩ := mem_spineAll.mp hs
      exact ih e he (h e he) hse

/-- A leaf that is legal in the Query is rendered in exactly one half. -/
theorem inKeyCondition_eq_not_inFilter {ks : KeySchemaView} {negate : Bool} {l : Leaf}
    (h : leafQuerySafe ks negate l = true) :
    l.inKeyCondition ks negate = !l.inFilter ks negate := by
  obtain ⟨lhs, p⟩ := l
  cases p with
  | comparison op rhs =>
      cases hpk : ks.pk.contains lhs <;> cases hsk : ks.sk.contains lhs <;>
        simp_all [Leaf.inKeyCondition, Leaf.inFilter]
  | between lo hi =>
      cases hpk : ks.pk.contains lhs <;> cases hsk : ks.sk.contains lhs <;>
        simp_all [Leaf.inKeyCondition, Leaf.inFilter, leafQuerySafe]
  | beginsWith start =>
      cases hpk : ks.pk.contains lhs <;> cases hsk : ks.sk.contains lhs <;>
        simp_all [Leaf.inKeyCondition, Leaf.inFilter, leafQuerySafe]
  | _ => rfl

mutual

/-- Some negated AND in parentheses stands outside every OR. -/
def negatedGroup : LogicalExpression → Bool
  | .leaf .. | .or .. => false
  | .and negate parens exprlist => (negate && parens) || negatedGroupAny exprlist

def negatedGroupAny : List LogicalExpression → Bool
  | [] => false
  | e :: es => e.negatedGroup || negatedGroupAny es

end

theorem negatedGroupAny_eq_any (es : List LogicalExpression) :
    negatedGroupAny es = es.any negatedGroup := by
  induction es with
  | nil => rfl
  | cons e es ih => rw [negatedGroupAny, ih, List.any_cons]

/-- IS NOT NULL tests have no leaf on a key attribute of a safe Query: their
`attribute_exists` half would not be legal there. -/
theorem nullTests_inFilter {ks : KeySchemaView} {lhss : List String}
    (h : querySafeAll ks (lhss.flatMap nullTest) = true) :
    ∀ s ∈ spineAll (lhss.flatMap nullTest), s.2.inFilter ks s.1 = true := by
  rw [querySafeAll_eq_all, List.all_eq_true] at h
  intro s hs
  obtain ⟨e, he, hse⟩ := mem_spineAll.mp hs
  obtain ⟨lhs, hlhs, hmem⟩ := List.mem_flatMap.mp he
  have hexists := h (.leaf false false ⟨lhs, .attributeExists⟩)
    (List.mem_flatMap.mpr ⟨lhs, hlhs, by simp [nullTest]⟩)
  have houtside : ks.pk.contains lhs = false ∧ ks.sk.contains lhs = false := by
    simpa [querySafe, leafQuerySafe] using hexists
  rcases List.mem_cons.mp hmem with rfl | hmem
  · rw [spine, List.mem_singleton] at hse
    subst hse
    simp only [Leaf.inFilter, isNullLeaf, houtside]
    rfl
  · rw [List.mem_singleton.mp hmem, spine, List.mem_singleton] at hse
    subst hse
    rfl

/-- Nothing of a tree whose spine the filter keeps whole goes to the key
condition, parentheses apart. -/
theorem vacantAll_keyCondition {ks : KeySchemaView} {lhss : List String}
    (h : querySafeAll ks (lhss.flatMap nullTest) = true) :
    vacantAll (keyConditionPart ks) (lhss.flatMap nullTest) = true := by
  have hfilter := nullTests_inFilter h
  rw [vacantAll_eq_all, List.all_eq_true]
  rw [querySafeAll_eq_all, List.all_eq_true] at h
  intro e he
  obtain ⟨lhs, hlhs, hmem⟩ := List.mem_flatMap.mp he
  have hleaf : ∃ negate parens l, e = .leaf negate parens l := by
    rcases List.mem_cons.mp hmem with rfl | hmem
    · exact ⟨_, _, _, rfl⟩
    · exact ⟨_, _, _, List.mem_singleton.mp hmem⟩
  obtain ⟨negate, parens, l, rfl⟩ := hleaf
  have hspine : (negate, l) ∈ spineAll (lhss.flatMap nullTest) :=
    mem_spineAll.mpr ⟨_, he, by simp [spine]⟩
  have hsplit := inKeyCondition_eq_not_inFilter (h _ he)
  simp [vacant, keyConditionPart, hsplit, hfilter _ hspine]

/-- The two halves of a Query are together the tree. -/
theorem Grown.holds_eq_halves {ks : KeySchemaView} {e : LogicalExpression} (h : Grown e)
    (hsafe : e.querySafe ks = true) (hneg : e.negatedGroup = false) (v : Leaf → Bool) :
    e.holds v = (e.partHolds (keyConditionPart ks) v && e.partHolds (filterPart ks) v) := by
  induction e using induct with
  | leaf negate parens l =>
      have hsplit := inKeyCondition_eq_not_inFilter hsafe
      cases hf : l.inFilter ks negate <;>
        simp [partHolds, holds, keyConditionPart, filterPart, hsplit, hf]
  | or negate parens es ih => simp [partHolds, keyConditionPart, filterPart]
  | and negate parens es ih =>
      have hwhole := h
      cases h with
      | and size children grouped bare =>
          simp only [negatedGroup, Bool.or_eq_false_iff, Bool.and_eq_false_iff] at hneg
          cases negate with
          | true =>
              -- without parentheses these are IS NOT NULL tests, all of them in the filter
              have hparens : parens = false := by simpa using hneg.1
              obtain ⟨lhss, rfl⟩ := bare rfl (by simp [hparens])
              have hkeep := hwhole.partHolds_of_keep (q := filterPart ks) rfl
                (nullTests_inFilter hsafe)
              rw [hkeep.2, partHolds_of_vacant (q := keyConditionPart ks), Bool.true_and]
              simp [vacant, hparens, vacantAll_keyCondition hsafe]
          | false =>
              rw [querySafe, querySafeAll_eq_all, List.all_eq_true] at hsafe
              have hchild : ∀ e ∈ es, e.negatedGroup = false := by
                simpa [negatedGroupAny_eq_any] using hneg.2
              rw [partHolds_and_false, partHolds_and_false, holds, Bool.false_xor,
                allHold_eq_all, partAllHold_eq_all, partAllHold_eq_all]
              rw [Bool.eq_iff_iff, Bool.and_eq_true, List.all_eq_true, List.all_eq_true,
                List.all_eq_true, ← forall₂_and]
              refine forall₂_congr fun e he => ?_
              rw [ih e he (children e he) (hsafe e he) (hchild e he), Bool.and_eq_true]

end LogicalExpression

/-- The halves are what the request carries, and every leaf of the tree is
written in exactly one of them. -/
def RenderedOnce (w : Where) (plan : QueryKeyPlan) : Prop :=
  let keyCondition := w.root.part (keyConditionPart plan.view)
  let filter := w.root.part (filterPart plan.view)
  w.queryKeyConditionExpression plan = spell keyCondition ∧
    w.queryFilterExpression plan = spell filter ∧
    (atoms keyCondition ++ atoms filter).Perm w.root.leaves

/-- Key condition and filter together have the clause's truth value. -/
def SplitSound (svc : Service) (w : Where) (plan : QueryKeyPlan) : Prop :=
  ∀ item, ∃ a b,
    truth (svc.leafHolds item) (w.root.part (keyConditionPart plan.view)) = some a ∧
      truth (svc.leafHolds item) (w.root.part (filterPart plan.view)) = some b ∧
      svc.satisfies item w = (a && b)

theorem renderedOnce_of_plan {w : Where} (hg : Grown w.root) {pk rk : List String}
    {plan : QueryKeyPlan} (hplan : w.planQuery pk rk = some plan) : RenderedOnce w plan := by
  obtain ⟨_, _, _, hsafe, _⟩ := Where.planQuery_spec hplan
  refine ⟨Where.queryKeyConditionExpression_eq hg plan, Where.queryFilterExpression_eq hg plan, ?_⟩
  rw [atoms_part, atoms_part]
  refine partLeaves_perm rfl rfl ?_
  intro s hs
  exact inKeyCondition_eq_not_inFilter (leafQuerySafe_of_spine hsafe hs)

/-- Every planned Query writes each leaf once; its halves mean the clause when
no parenthesised AND outside the ORs is negated. -/
theorem querySplit_sound (svc : Service) (pk rk : List String) (clause : SourceExpr .or)
    (plan : QueryKeyPlan) (hplan : (Where.mk clause.build).planQuery pk rk = some plan) :
    RenderedOnce ⟨clause.build⟩ plan ∧
      (clause.build.negatedGroup = false → SplitSound svc ⟨clause.build⟩ plan) := by
  have hg := clause.grown_build.1
  obtain ⟨_, _, _, hsafe, _⟩ := Where.planQuery_spec hplan
  refine ⟨renderedOnce_of_plan hg hplan, fun hneg item => ?_⟩
  exact ⟨_, _, hg.truth_part _ _, hg.truth_part _ _, hg.holds_eq_halves hsafe hneg _⟩

/-- `pk = 1 AND NOT x = 2` -/
def negatedLeaf : SourceExpr .or :=
  .ofAnd (.and (.ofNot (.element (.comparison "pk" (.op .equal) (.N "1"))))
    (.not (.element (.comparison "x" (.op .equal) (.N "2")))))

theorem negatedLeaf_querySplit_sound :
    (Where.mk negatedLeaf.build).planQuery ["pk"] [] = some ⟨["pk"], []⟩ ∧
      SplitSound .verbatim ⟨negatedLeaf.build⟩ ⟨["pk"], []⟩ :=
  ⟨by decide, (querySplit_sound .verbatim ["pk"] [] negatedLeaf _ (by decide)).2 (by decide)⟩

/-- `NOT (pk = 1 AND x = 2)` -/
def negatedPair : SourceExpr .or :=
  .ofAnd (.ofNot (.not (.paren (.ofAnd (.and
    (.ofNot (.element (.comparison "pk" (.op .equal) (.N "1"))))
    (.element (.comparison "x" (.op .equal) (.N "2"))))))))

/-- It is planned as `NOT pk = 1` with the filter `NOT x = 2`, which misses the
items where one of the two holds. -/
theorem negatedPair_querySplit_unsound :
    ¬ ((Where.mk negatedPair.build).planQuery ["pk"] [] = some ⟨["pk"], []⟩ →
      SplitSound .verbatim ⟨negatedPair.build⟩ ⟨["pk"], []⟩) := by
  intro h
  obtain ⟨a, b, ha, hb, hab⟩ :=
    h (by decide) fun name => if name = "pk" then some (.N "1") else some (.N "3")
  have ha' : a = false := by
    have hread : truth (Service.verbatim.leafHolds
        fun name => if name = "pk" then some (.N "1") else some (.N "3"))
        (negatedPair.build.part (keyConditionPart ⟨["pk"], []⟩)) = some false := by decide
    exact Option.some.inj (ha.symm.trans hread)
  rw [ha', Bool.false_and] at hab
  revert hab
  decide

end DdbShell
