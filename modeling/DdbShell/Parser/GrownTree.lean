import DdbShell.Parser.WhereGrammar

/-!
What holds of every tree the grammar actions build, however the reductions
are interleaved with the in-place flattening: each AND or OR has at least two
children, an OR below another connective kept its parentheses, an OR is
negated only as a parenthesis group, and an AND negated without parentheses
consists of IS NOT NULL tests alone.
-/

namespace DdbShell

open Infix (Prec)

namespace LogicalExpression

/-- The two leaves `lhs IS NOT NULL` desugars to. -/
def nullTest (lhs : String) : List LogicalExpression :=
  [.leaf true false (isNullLeaf lhs), .leaf false false ⟨lhs, .attributeExists⟩]

inductive Grown : LogicalExpression → Prop where
  | leaf (negate parens : Bool) (l : Leaf) : Grown (.leaf negate parens l)
  | and {negate parens : Bool} {exprlist : List LogicalExpression}
      (size : 2 ≤ exprlist.length)
      (children : ∀ e ∈ exprlist, Grown e)
      (grouped : ∀ e ∈ exprlist, e.isOr → e.isParenGroup)
      (bare : negate → !parens → ∃ lhss : List String, exprlist = lhss.flatMap nullTest) :
      Grown (.and negate parens exprlist)
  | or {negate parens : Bool} {exprlist : List LogicalExpression}
      (size : 2 ≤ exprlist.length)
      (children : ∀ e ∈ exprlist, Grown e)
      (grouped : ∀ e ∈ exprlist, e.isOr → e.isParenGroup)
      (bare : negate → parens) :
      Grown (.or negate parens exprlist)

/-- Trees that can stand under a NOT: a connective is in parentheses, or is
an IS NOT NULL test. -/
def Closed (e : LogicalExpression) : Prop :=
  (e.isOr → e.isParenGroup) ∧
    (e.isAnd → !e.isParenGroup → ∃ lhss : List String, e.exprlist = lhss.flatMap nullTest)

theorem closed_leaf (negate parens : Bool) (l : Leaf) :
    Closed (.leaf negate parens l) := by
  simp [Closed, isOr, isAnd]

theorem Grown.negate {e : LogicalExpression} (h : Grown e) (hc : Closed e) :
    Grown e.negate := by
  cases h with
  | leaf negate parens l => exact .leaf _ _ _
  | and size children grouped bare =>
      refine .and size children grouped ?_
      intro _ hparens
      exact hc.2 rfl hparens
  | or size children grouped bare =>
      refine .or size children grouped ?_
      intro _
      exact hc.1 rfl

theorem Grown.setParenGroup {e : LogicalExpression} (h : Grown e) :
    Grown e.setParenGroup := by
  cases h with
  | leaf negate parens l => exact .leaf _ _ _
  | and size children grouped bare => exact .and size children grouped (by simp)
  | or size children grouped bare => exact .or size children grouped (by simp)

theorem Closed.negate {e : LogicalExpression} (h : Closed e) : Closed e.negate := by
  cases e <;> exact h

theorem closed_setParenGroup (e : LogicalExpression) : Closed e.setParenGroup := by
  cases e <;> simp [Closed, LogicalExpression.setParenGroup, isOr, isAnd, isParenGroup]

/-- A tree without OR at its top stays one under `makeAnd`. -/
theorem makeAnd_isOr (e1 e2 : LogicalExpression) : (makeAnd e1 e2).isOr = false := by
  unfold makeAnd
  split
  · cases e1 <;> simp_all [isAnd, pushBack, isOr]
  · split
    · cases e1 <;> simp_all [isAnd, pushBack, isOr]
    · rfl

theorem Grown.makeAnd {e1 e2 : LogicalExpression} (h1 : Grown e1) (h2 : Grown e2)
    (hor1 : e1.isOr → e1.isParenGroup) (hor2 : e2.isOr → e2.isParenGroup) :
    Grown (makeAnd e1 e2) := by
  unfold LogicalExpression.makeAnd
  split
  · rename_i hsplice
    obtain ⟨hneg, hand1, hand2, hp1, hp2⟩ := hsplice
    cases h1 with
    | leaf negate parens l => cases hand1
    | or size children grouped bare => cases hand1
    | @and n1 p1 xs size1 children1 grouped1 bare1 =>
        cases h2 with
        | leaf negate parens l => cases hand2
        | or size children grouped bare => cases hand2
        | @and n2 p2 ys size2 children2 grouped2 bare2 =>
            simp only [isNegated] at hneg
            subst hneg
            refine .and ?_ (List.forall_mem_append.mpr ⟨children1, children2⟩)
              (List.forall_mem_append.mpr ⟨grouped1, grouped2⟩) ?_
            · simp only [exprlist, List.length_append]
              omega
            · intro hn _
              obtain ⟨ls, rfl⟩ := bare1 hn hp1
              obtain ⟨ms, hms⟩ := bare2 hn hp2
              exact ⟨ls ++ ms, by simp [exprlist, hms]⟩
  · split
    · rename_i happend
      obtain ⟨hneg, hand1⟩ := happend
      cases h1 with
      | leaf negate parens l => cases hand1
      | or size children grouped bare => cases hand1
      | @and n1 p1 xs size1 children1 grouped1 bare1 =>
          refine .and ?_ (List.forall_mem_append.mpr ⟨children1, by simpa using h2⟩)
            (List.forall_mem_append.mpr ⟨grouped1, by simpa using hor2⟩) ?_
          · simp only [List.length_append]
            omega
          · intro hn _
            simp [isNegated, hn] at hneg
    · exact .and (by simp) (by simpa using ⟨h1, h2⟩) (by simpa using ⟨hor1, hor2⟩) (by simp)

theorem Grown.makeOr {e1 e2 : LogicalExpression} (h1 : Grown e1) (h2 : Grown e2)
    (hor2 : e2.isOr → e2.isParenGroup) : Grown (makeOr e1 e2) := by
  unfold LogicalExpression.makeOr
  split
  · rename_i hsplice
    obtain ⟨_, _, hisOr2, _, hp2⟩ := hsplice
    simp [hor2 hisOr2] at hp2
  · split
    · rename_i happend
      obtain ⟨hneg, hisOr1⟩ := happend
      cases h1 with
      | leaf negate parens l => cases hisOr1
      | and size children grouped bare => cases hisOr1
      | @or n1 p1 xs size1 children1 grouped1 bare1 =>
          refine .or ?_ (List.forall_mem_append.mpr ⟨children1, by simpa using h2⟩)
            (List.forall_mem_append.mpr ⟨grouped1, by simpa using hor2⟩) bare1
          simp only [List.length_append]
          omega
    · -- an OR that was not appended to is negated, hence a parenthesis group
      rename_i happend
      have hor1 : e1.isOr → e1.isParenGroup := by
        intro hisOr1
        have hneg : e1.isNegated := by simpa [hisOr1] using happend
        cases h1 with
        | leaf negate parens l => cases hisOr1
        | and size children grouped bare => cases hisOr1
        | or size children grouped bare => exact bare hneg
      exact .or (by simp) (by simpa using ⟨h1, h2⟩) (by simpa using ⟨hor1, hor2⟩) (by simp)

end LogicalExpression

open LogicalExpression

theorem Element.grown_build (e : Element) : Grown e.build ∧ Closed e.build := by
  cases e with
  | isNotNull lhs =>
      have hchildren : ∀ e ∈ nullTest lhs, Grown e ∧ e.isOr = false := by
        intro e he
        rcases List.mem_cons.mp he with rfl | he
        · exact ⟨.leaf _ _ _, rfl⟩
        · rw [List.mem_singleton.mp he]
          exact ⟨.leaf _ _ _, rfl⟩
      refine ⟨.and (by simp) (fun e he => (hchildren e he).1) ?_ (by simp), ?_, ?_⟩
      · intro e he hor
        rw [(hchildren e he).2] at hor
        cases hor
      · intro hor
        cases hor
      · intro _ _
        exact ⟨[lhs], rfl⟩
  | comparison lhs op rhs => cases op <;> exact ⟨.leaf _ _ _, closed_leaf _ _ _⟩
  | size lhs op rhs => cases op <;> exact ⟨.leaf _ _ _, closed_leaf _ _ _⟩
  | _ => exact ⟨.leaf _ _ _, closed_leaf _ _ _⟩

/-- What a built tree satisfies at each precedence level. -/
def LevelShape : Prec → LogicalExpression → Prop
  | .not, e => Closed e
  | .and, e => e.isOr → e.isParenGroup
  | .or, _ => True

/-- The invariant is preserved by every grammar action. -/
theorem SourceExpr.grown_build {p : Prec} (e : SourceExpr p) :
    Grown e.build ∧ LevelShape p e.build := by
  induction e with
  | element e => exact e.grown_build
  | not e ih => exact ⟨ih.1.negate ih.2, ih.2.negate⟩
  | paren e ih => exact ⟨ih.1.setParenGroup, closed_setParenGroup _⟩
  | ofNot e ih => exact ⟨ih.1, ih.2.1⟩
  | and l r ihl ihr =>
      refine ⟨ihl.1.makeAnd ihr.1 ihl.2 ihr.2.1, ?_⟩
      intro hor
      simp [build, makeAnd_isOr] at hor
  | ofAnd e ih => exact ⟨ih.1, trivial⟩
  | or l r ihl ihr => exact ⟨ihl.1.makeOr ihr.1 ihr.2, trivial⟩

end DdbShell
