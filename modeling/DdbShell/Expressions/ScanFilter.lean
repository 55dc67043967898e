import DdbShell.Expressions.Atoms
import DdbShell.Expressions.ConditionText
import DdbShell.Parser.WhereMeaning

/-!
The Scan filter. Its text is a sentence of the condition grammar that means
what the tree means, for every clause whose operands are document paths. An
operand text is cut at `.` and `[` wherever they stand, so a subscript below
zero, or a quoted name with a bracket in it, leaves something in the text that
is no subscript.
-/

namespace DdbShell

open Infix (Prec Token)
open SymbolTable

namespace LogicalExpression

/-! ### The leaves of a built tree -/

theorem leavesAll_append (xs ys : List LogicalExpression) :
    leavesAll (xs ++ ys) = leavesAll xs ++ leavesAll ys := by
  simp [leavesAll_eq_flatMap]

theorem leaves_makeAnd (e1 e2 : LogicalExpression) :
    (makeAnd e1 e2).leaves = e1.leaves ++ e2.leaves := by
  unfold makeAnd
  split
  · rename_i hsplice
    cases e1 <;> cases e2 <;> simp_all [isAnd, pushBack, exprlist, leaves, leavesAll_append]
  · split
    · rename_i happend
      cases e1 <;> simp_all [isAnd, pushBack, leaves, leavesAll_append, leavesAll]
    · simp [leaves, leavesAll]

theorem leaves_makeOr (e1 e2 : LogicalExpression) :
    (makeOr e1 e2).leaves = e1.leaves ++ e2.leaves := by
  unfold makeOr
  split
  · rename_i hsplice
    cases e1 <;> cases e2 <;> simp_all [isOr, pushBack, exprlist, leaves, leavesAll_append]
  · split
    · rename_i happend
      cases e1 <;> simp_all [isOr, pushBack, leaves, leavesAll_append, leavesAll]
    · simp [leaves, leavesAll]

end LogicalExpression

open LogicalExpression

theorem Element.leaves_build (e : Element) : e.build.leaves = e.leaves := by
  cases e with
  | isNotNull lhs =>
      simp only [build, leaves_makeAnd, Element.leaves]
      rfl
  | comparison lhs op rhs => cases op <;> rfl
  | size lhs op rhs => cases op <;> rfl
  | _ => rfl

/-- The actions neither lose a leaf nor add one. -/
theorem SourceExpr.leaves_build {p : Prec} (e : SourceExpr p) : e.build.leaves = e.leaves := by
  induction e with
  | element e => exact e.leaves_build
  | not e ih =>
      rw [build, SourceExpr.leaves, ← ih]
      cases e.build <;> rfl
  | paren e ih =>
      rw [build, SourceExpr.leaves, ← ih]
      cases e.build <;> rfl
  | ofNot e ih => exact ih
  | and l r ihl ihr => rw [build, SourceExpr.leaves, leaves_makeAnd, ihl, ihr]
  | ofAnd e ih => exact ih
  | or l r ihl ihr => rw [build, SourceExpr.leaves, leaves_makeOr, ihl, ihr]

theorem Element.isIn_ne_nil {e : Element} {l : Leaf} (h : l ∈ e.leaves) :
    l.predicate ≠ .isIn [] := by
  cases e with
  | comparison lhs op rhs => cases op <;> simp_all [Element.leaves]
  | size lhs op rhs => cases op <;> simp_all [Element.leaves]
  | isNotNull lhs =>
      simp only [Element.leaves, List.mem_cons, List.not_mem_nil, or_false] at h
      rcases h with rfl | rfl <;> simp [isNullLeaf]
  | _ => simp_all [Element.leaves, isNullLeaf]

theorem SourceExpr.isIn_ne_nil {p : Prec} {e : SourceExpr p} {l : Leaf} (h : l ∈ e.leaves) :
    l.predicate ≠ .isIn [] := by
  induction e with
  | element e => exact e.isIn_ne_nil h
  | not e ih => exact ih h
  | paren e ih => exact ih h
  | ofNot e ih => exact ih h
  | and l r ihl ihr => exact (List.mem_append.mp h).elim ihl ihr
  | ofAnd e ih => exact ih h
  | or l r ihl ihr => exact (List.mem_append.mp h).elim ihl ihr

/-- Leaves of a clause whose operands are document paths are well formed. -/
theorem SourceExpr.wellFormed_leaves {p : Prec} {e : SourceExpr p}
    (h : ∀ l ∈ e.leaves, (operandPath l.lhs).isSome = true) {l : Leaf} (hl : l ∈ e.build.leaves) :
    l.wellFormed = true := by
  rw [e.leaves_build] at hl
  simp [Leaf.wellFormed, h l hl, SourceExpr.isIn_ne_nil hl]

theorem mem_atoms {ts : Tokens} {l : Leaf} : l ∈ atoms ts ↔ .atom l ∈ ts := by
  simp only [atoms, List.mem_filterMap]
  constructor
  · rintro ⟨t, ht, hsome⟩
    cases t <;> simp_all
  · intro h
    exact ⟨.atom l, h, rfl⟩

/-! ### Grouped ORs -/

namespace LogicalExpression

mutual

/-- An OR below an AND is a parenthesis group or negated. -/
def orsGrouped : LogicalExpression → Bool
  | .leaf .. => true
  | .and _ _ exprlist =>
      exprlist.all (fun e => !e.isOr || e.isParenGroup || e.isNegated) && orsGroupedAll exprlist
  | .or _ _ exprlist => orsGroupedAll exprlist

def orsGroupedAll : List LogicalExpression → Bool
  | [] => true
  | e :: es => e.orsGrouped && orsGroupedAll es

end

theorem orsGroupedAll_eq_all (es : List LogicalExpression) :
    orsGroupedAll es = es.all orsGrouped := by
  induction es with
  | nil => rfl
  | cons e es ih => rw [orsGroupedAll, ih, List.all_cons]

theorem Grown.orsGrouped {e : LogicalExpression} (h : Grown e) : e.orsGrouped = true := by
  induction e using induct with
  | leaf negate parens l => rfl
  | and negate parens es ih =>
      cases h with
      | and size children grouped bare =>
          simp only [LogicalExpression.orsGrouped, orsGroupedAll_eq_all, Bool.and_eq_true,
            List.all_eq_true]
          refine ⟨?_, fun e he => ih e he (children e he)⟩
          intro e he
          have hgrouped := grouped e he
          cases hor : e.isOr <;> simp_all
  | or negate parens es ih =>
      cases h with
      | or size children grouped bare =>
          simp only [LogicalExpression.orsGrouped, orsGroupedAll_eq_all, List.all_eq_true]
          exact fun e he => ih e he (children e he)

end LogicalExpression

/-- The Scan filter of a clause whose operands are document paths, read back
under the aliases of its own or any later symbol table, is a condition with the
truth value of the tree on every item. In every tree an OR below an AND is
grouped or negated. -/
theorem scanFilter_faithful (clause : SourceExpr .or) :
    clause.build.orsGrouped = true ∧
      ((∀ l ∈ clause.leaves, (operandPath l.lhs).isSome = true) →
        ∀ st st', Valid st → Valid st' →
          Extends ((Where.mk clause.build).scanFilterExpression st).2 st' →
            ∃ c, readConditionExpression st'.aliases
                ((Where.mk clause.build).scanFilterExpression st).1 = some c ∧ c.full = true ∧
              ∀ (svc : Service) (doc : Document),
                c.eval (svc.conditionHolds doc) =
                  clause.build.holds (svc.leafHolds doc.item)) := by
  have hgrown := clause.grown_build.1
  refine ⟨hgrown.orsGrouped, ?_⟩
  intro hpaths st st' hst hst' hext
  have hleaves : ∀ l, .atom l ∈ clause.build.tokens → l.wellFormed = true := by
    intro l hl
    refine SourceExpr.wellFormed_leaves hpaths ?_
    rw [← atoms_tokens]
    exact mem_atoms.mpr hl
  simp only [Where.scanFilterExpression, serialize_eq] at hext ⊢
  obtain ⟨c, hread, hfull, hvalue⟩ :=
    readConditionExpression_spell hgrown.denotes hleaves hst hst' hext
  refine ⟨c, hread, hfull, ?_⟩
  intro svc doc
  rw [hvalue]
  refine (clause.holds_congr ?_).2
  intro l hl
  refine Leaf.conditionHolds_condition svc doc (SourceExpr.wellFormed_leaves hpaths ?_)
  rw [clause.leaves_build]
  exact hl

/-- `a.b[0] = 5 AND (c IN (1, 2) OR NOT d IS NOT NULL)`. -/
def pathClause : SourceExpr .or :=
  .ofAnd (.and (.ofNot (.element (.comparison "a.b[0]" (.op .equal) (.N "5"))))
    (.paren (.or (.ofAnd (.ofNot (.element (.isIn "c" (.N "1") [.N "2"]))))
      (.ofNot (.not (.element (.isNotNull "d")))))))

theorem pathClause_scanFilter_faithful :
    ∃ c, readConditionExpression
        ((Where.mk pathClause.build).scanFilterExpression ⟨"aaa", 1, 1, ∅, ∅⟩).2.aliases
        ((Where.mk pathClause.build).scanFilterExpression ⟨"aaa", 1, 1, ∅, ∅⟩).1 = some c ∧
      c.full = true ∧ ∀ (svc : Service) (doc : Document),
        c.eval (svc.conditionHolds doc) = pathClause.build.holds (svc.leafHolds doc.item) := by
  have hst : Valid ⟨"aaa", 1, 1, ∅, ∅⟩ := valid_empty
    (List.all_iff_forall_prop.mp (by decide +kernel))
  have hgrows : Grows (Where.mk pathClause.build).scanFilterExpression := by
    intro st hst
    rw [Where.scanFilterExpression, serialize_eq]
    exact (spell_mints _).grows st hst
  exact (scanFilter_faithful pathClause).2 (by decide +kernel) _ _ hst (hgrows _ hst).1
    (Extends.refl _)

/-- `"price[usd]" = 5`, a quoted attribute name. -/
def bracketedName : SourceExpr .or :=
  .ofAnd (.ofNot (.element (.comparison "price[usd]" (.op .equal) (.N "5"))))

/-- `a[-1] = 5`: a whole number may have a sign. -/
def signedSubscript : SourceExpr .or :=
  .ofAnd (.ofNot (.element (.comparison "a[-1]" (.op .equal) (.N "5"))))

/-- Neither filter is a sentence: the texts are `#aaaa1[usd] = :vaaa1` and
`#aaaa1[-1] = :vaaa1`. -/
theorem bracketedName_scanFilter_unreadable :
    readConditionExpression
        ((Where.mk bracketedName.build).scanFilterExpression ⟨"aaa", 1, 1, ∅, ∅⟩).2.aliases
        ((Where.mk bracketedName.build).scanFilterExpression ⟨"aaa", 1, 1, ∅, ∅⟩).1 = none ∧
      readConditionExpression
        ((Where.mk signedSubscript.build).scanFilterExpression ⟨"aaa", 1, 1, ∅, ∅⟩).2.aliases
        ((Where.mk signedSubscript.build).scanFilterExpression ⟨"aaa", 1, 1, ∅, ∅⟩).1 = none := by
  decide +kernel

end DdbShell
