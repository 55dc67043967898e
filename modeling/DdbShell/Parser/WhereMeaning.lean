import DdbShell.Parser.GrownTree
import Mathlib.Data.List.Nodup

/-!
The parsed WHERE tree against the clause as written. The flattening of
`makeAnd` is sound except where it splices two negated, unparenthesised
conjunctions; the only such operands the grammar can produce are IS NOT NULL
tests under an odd number of NOTs. `clashFree` says no AND joins two of them,
and the tree means what was written exactly then.
-/

namespace DdbShell

open Infix (Prec)
open LogicalExpression

def Element.leaves : Element → List Leaf
  | .comparison lhs (.op op) rhs => [⟨lhs, .comparison op rhs⟩]
  | .comparison lhs .bangEqual rhs => [⟨lhs, .comparison .equal rhs⟩]
  | .isNull lhs => [isNullLeaf lhs]
  | .isNotNull lhs => [isNullLeaf lhs, ⟨lhs, .attributeExists⟩]
  | .between lhs lo hi => [⟨lhs, .between lo hi⟩]
  | .isIn lhs first rest => [⟨lhs, .isIn (first :: rest)⟩]
  | .attributeExists lhs | .attributeNotExists lhs => [⟨lhs, .attributeExists⟩]
  | .attributeType lhs type => [⟨lhs, .attributeType type⟩]
  | .beginsWith lhs start => [⟨lhs, .beginsWith (.S start)⟩]
  | .contains lhs operand => [⟨lhs, .contains (.S operand)⟩]
  | .size lhs (.op op) rhs => [⟨"size(" ++ lhs ++ ")", .comparison op rhs⟩]
  | .size lhs .bangEqual rhs => [⟨"size(" ++ lhs ++ ")", .comparison .equal rhs⟩]

namespace SourceExpr

/-- The desugared leaves, left to right. -/
def leaves : {p : Prec} → SourceExpr p → List Leaf
  | _, .element e => e.leaves
  | _, .not e | _, .paren e | _, .ofNot e | _, .ofAnd e => e.leaves
  | _, .and l r | _, .or l r => l.leaves ++ r.leaves

/-- `some n` for an IS NOT NULL test under NOTs alone, where `n` says whether
their number is odd. -/
def nullTestSign : {p : Prec} → SourceExpr p → Option Bool
  | _, .element (.isNotNull _) => some false
  | _, .element _ => none
  | _, .not e => e.nullTestSign.map Bool.not
  | _, .ofNot e => e.nullTestSign
  | _, .paren _ | _, .and .. | _, .ofAnd _ | _, .or .. => none

/-- No AND joins two negated, unparenthesised IS NOT NULL tests. -/
def clashFree : {p : Prec} → SourceExpr p → Bool
  | _, .element _ => true
  | _, .not e | _, .paren e | _, .ofNot e | _, .ofAnd e => e.clashFree
  | _, .and l r =>
      l.clashFree && (r.clashFree &&
        !(l.nullTestSign = some true && r.nullTestSign = some true))
  | _, .or l r => l.clashFree && r.clashFree

end SourceExpr

/-- What `nullTestSign` says about the built tree, level by level. -/
def SignSpec : (p : Prec) → SourceExpr p → Prop
  | .not, e => ∀ n, (∃ xs, e.build = .and n false xs) ↔ e.nullTestSign = some n
  | .and, e => (∃ xs, e.build = .and true false xs) ↔ e.nullTestSign = some true
  | .or, _ => True

theorem makeAnd_negated {e1 e2 : LogicalExpression} {xs : List LogicalExpression}
    (h : makeAnd e1 e2 = .and true false xs) : Clash e1 e2 := by
  unfold makeAnd at h
  split at h
  · rename_i hsplice
    cases e1 <;> cases e2 <;> simp_all [isAnd, isNegated, isParenGroup, pushBack, exprlist, Clash]
  · split at h
    · rename_i happend
      cases e1 <;> simp_all [isAnd, isNegated, pushBack]
    · simp at h

theorem SourceExpr.sign_spec {p : Prec} (e : SourceExpr p) (h : e.clashFree = true) :
    SignSpec p e := by
  induction e with
  | element e =>
      intro n
      cases e with
      | isNotNull lhs =>
          constructor
          · rintro ⟨xs, hxs⟩
            cases hxs
            rfl
          · intro hsign
            cases hsign
            exact ⟨_, rfl⟩
      | comparison lhs op rhs =>
          cases op <;> simp [build, Element.build, logicalComparison, nullTestSign]
      | size lhs op rhs =>
          cases op <;> simp [build, Element.build, logicalComparison, nullTestSign]
      | _ =>
          simp [build, Element.build, logicalComparison, logicalAttributeExists, nullTestSign]
  | not e ih =>
      intro n
      have hsame := ih h (!n)
      have hbuild : (∃ xs, e.build.negate = .and n false xs) ↔
          ∃ xs, e.build = .and (!n) false xs := by
        cases e.build <;> simp [negate, Bool.not_eq_eq_eq_not]
      rw [build, hbuild, hsame, nullTestSign]
      cases e.nullTestSign with
      | none => simp
      | some m => simp [Bool.not_eq_eq_eq_not]
  | paren e ih =>
      intro n
      constructor
      · rintro ⟨xs, hxs⟩
        revert hxs
        rw [build]
        cases e.build <;> simp [setParenGroup]
      · intro hsign
        cases hsign
  | ofNot e ih => exact ih h true
  | and l r ihl ihr =>
      simp only [clashFree, Bool.and_eq_true, Bool.not_eq_true', Bool.and_eq_false_iff,
        decide_eq_false_iff_not] at h
      obtain ⟨hl, hr, hclash⟩ := h
      constructor
      · rintro ⟨xs, hxs⟩
        obtain ⟨ys, zs, hys, hzs⟩ := makeAnd_negated hxs
        have hsl := (ihl hl).mp ⟨ys, hys⟩
        have hsr := (ihr hr true).mp ⟨zs, hzs⟩
        rcases hclash with hc | hc <;> contradiction
      · intro hsign
        cases hsign
  | ofAnd e ih => trivial
  | or l r ihl ihr => trivial

/-- Operands of a clash-free AND do not clash as trees, and conversely. -/
theorem SourceExpr.clash_iff {l : SourceExpr .and} {r : SourceExpr .not}
    (hl : l.clashFree = true) (hr : r.clashFree = true) :
    Clash l.build r.build ↔ l.nullTestSign = some true ∧ r.nullTestSign = some true := by
  have hsl := l.sign_spec hl
  have hsr := r.sign_spec hr true
  constructor
  · rintro ⟨xs, ys, hxs, hys⟩
    exact ⟨hsl.mp ⟨xs, hxs⟩, hsr.mp ⟨ys, hys⟩⟩
  · rintro ⟨h1, h2⟩
    obtain ⟨xs, hxs⟩ := hsl.mpr h1
    obtain ⟨ys, hys⟩ := hsr.mpr h2
    exact ⟨xs, ys, hxs, hys⟩

/-- `makeOr` always means OR on trees the grammar builds. -/
theorem SourceExpr.holds_build_or (v : Leaf → Bool) (l : SourceExpr .or) (r : SourceExpr .and) :
    (SourceExpr.or l r).build.holds v = (l.build.holds v || r.build.holds v) := by
  refine holds_makeOr v ?_
  intro hor hneg
  have hgrown := l.grown_build.1
  cases hb : l.build with
  | leaf negate parens leaf => simp [hb, isOr] at hor
  | and negate parens exprlist => simp [hb, isOr] at hor
  | or negate parens exprlist =>
      rw [hb] at hgrown hneg
      cases hgrown with
      | or size children grouped bare => exact bare hneg

theorem SourceExpr.holds_build {p : Prec} (e : SourceExpr p) (h : e.clashFree = true)
    (v : Leaf → Bool) : e.build.holds v = e.holds v := by
  induction e with
  | element e => exact e.holds_build v
  | not e ih => simp [build, holds, ih h]
  | paren e ih => simp [build, holds, ih h]
  | ofNot e ih => exact ih h
  | and l r ihl ihr =>
      simp only [clashFree, Bool.and_eq_true, Bool.not_eq_true', Bool.and_eq_false_iff,
        decide_eq_false_iff_not] at h
      obtain ⟨hl, hr, hclash⟩ := h
      have hno : ¬ Clash l.build r.build := by
        rw [clash_iff hl hr]
        rintro ⟨h1, h2⟩
        rcases hclash with hc | hc <;> contradiction
      rw [build, holds_makeAnd v hno, ihl hl, ihr hr, holds]
  | ofAnd e ih => exact ih h
  | or l r ihl ihr =>
      simp only [clashFree, Bool.and_eq_true] at h
      rw [holds_build_or, ihl h.1, ihr h.2, holds]

/-! ### The condition is exact -/

/-- Use `v` on the given leaves and `w` on all others. -/
def splitAssignment (ls : List Leaf) (v w : Leaf → Bool) (l : Leaf) : Bool :=
  if l ∈ ls then v l else w l

theorem splitAssignment_left {ls : List Leaf} {l : Leaf} (v w : Leaf → Bool) (h : l ∈ ls) :
    splitAssignment ls v w l = v l := if_pos h

theorem splitAssignment_right {ls ms : List Leaf} {l : Leaf} (v w : Leaf → Bool)
    (hdisjoint : List.Disjoint ls ms) (h : l ∈ ms) : splitAssignment ls v w l = w l :=
  if_neg fun hl => hdisjoint hl h

theorem Element.holds_congr {v w : Leaf → Bool} (e : Element)
    (h : ∀ l ∈ e.leaves, v l = w l) : e.holds v = e.holds w := by
  cases e with
  | comparison lhs op rhs => cases op <;> simp_all [Element.leaves, Element.holds]
  | size lhs op rhs => cases op <;> simp_all [Element.leaves, Element.holds]
  | _ => simp_all [Element.leaves, Element.holds]

/-- Clause and tree both depend on the clause's leaves alone. -/
theorem SourceExpr.holds_congr {p : Prec} {v w : Leaf → Bool} (e : SourceExpr p)
    (h : ∀ l ∈ e.leaves, v l = w l) :
    e.holds v = e.holds w ∧ e.build.holds v = e.build.holds w := by
  induction e with
  | element e => simp [holds, build, e.holds_congr h]
  | not e ih => simp [holds, build, ih h]
  | paren e ih => simp [holds, build, ih h]
  | ofNot e ih => exact ih h
  | and l r ihl ihr =>
      have hl := ihl fun leaf hleaf => h leaf (List.mem_append_left _ hleaf)
      have hr := ihr fun leaf hleaf => h leaf (List.mem_append_right _ hleaf)
      refine ⟨by simp [holds, hl, hr], ?_⟩
      by_cases hc : Clash l.build r.build
      · simp [build, holds_makeAnd_of_clash _ hc, hl, hr]
      · simp [build, holds_makeAnd _ hc, hl, hr]
  | ofAnd e ih => exact ih h
  | or l r ihl ihr =>
      have hl := ihl fun leaf hleaf => h leaf (List.mem_append_left _ hleaf)
      have hr := ihr fun leaf hleaf => h leaf (List.mem_append_right _ hleaf)
      exact ⟨by simp [holds, hl, hr], by simp [holds_build_or, hl, hr]⟩

/-- Assignments for the two sides of a connective act independently when no
leaf is written on both. -/
theorem SourceExpr.split_holds {p q : Prec} {l : SourceExpr p} {r : SourceExpr q}
    (hdisjoint : List.Disjoint l.leaves r.leaves) (v w : Leaf → Bool) :
    ∃ u, (l.holds u = l.holds v ∧ l.build.holds u = l.build.holds v) ∧
      (r.holds u = r.holds w ∧ r.build.holds u = r.build.holds w) :=
  ⟨splitAssignment l.leaves v w,
    l.holds_congr fun _ hleaf => splitAssignment_left v w hleaf,
    r.holds_congr fun _ hleaf => splitAssignment_right v w hdisjoint hleaf⟩

theorem Element.exists_holds (e : Element) (b : Bool) : ∃ v, e.holds v = b := by
  cases e with
  | isNotNull lhs => exact ⟨fun l => b && l.predicate = .attributeExists, by cases b <;> rfl⟩
  | attributeNotExists lhs => exact ⟨fun _ => !b, by simp [Element.holds]⟩
  | comparison lhs op rhs =>
      cases op with
      | op op => exact ⟨fun _ => b, rfl⟩
      | bangEqual => exact ⟨fun _ => !b, by simp [Element.holds]⟩
  | size lhs op rhs =>
      cases op with
      | op op => exact ⟨fun _ => b, rfl⟩
      | bangEqual => exact ⟨fun _ => !b, by simp [Element.holds]⟩
  | _ => exact ⟨fun _ => b, rfl⟩

/-- Either truth value can be given to clause and tree at the same time, even
where they disagree elsewhere. -/
theorem SourceExpr.exists_holds {p : Prec} (e : SourceExpr p) (h : e.leaves.Nodup) (b : Bool) :
    ∃ v, e.holds v = b ∧ e.build.holds v = b := by
  induction e generalizing b with
  | element e =>
      obtain ⟨v, hv⟩ := e.exists_holds b
      exact ⟨v, hv, (e.holds_build v).trans hv⟩
  | not e ih =>
      obtain ⟨v, hv⟩ := ih h (!b)
      exact ⟨v, by simp [holds, hv], by simp [build, hv]⟩
  | paren e ih =>
      obtain ⟨v, hv⟩ := ih h b
      exact ⟨v, by simp [holds, hv], by simp [build, hv]⟩
  | ofNot e ih => exact ih h b
  | and l r ihl ihr =>
      obtain ⟨hnl, hnr, hdisjoint⟩ := List.nodup_append'.mp h
      obtain ⟨v, hv⟩ := ihl hnl b
      obtain ⟨w, hw⟩ := ihr hnr b
      obtain ⟨u, hl, hr⟩ := split_holds hdisjoint v w
      refine ⟨u, by simp [holds, hl, hr, hv, hw], ?_⟩
      by_cases hc : Clash l.build r.build
      · simp [build, holds_makeAnd_of_clash _ hc, hl, hr, hv, hw]
      · simp [build, holds_makeAnd _ hc, hl, hr, hv, hw]
  | ofAnd e ih => exact ih h b
  | or l r ihl ihr =>
      obtain ⟨hnl, hnr, hdisjoint⟩ := List.nodup_append'.mp h
      obtain ⟨v, hv⟩ := ihl hnl b
      obtain ⟨w, hw⟩ := ihr hnr b
      obtain ⟨u, hl, hr⟩ := split_holds hdisjoint v w
      exact ⟨u, by simp [holds, hl, hr, hv, hw], by simp [holds_build_or, hl, hr, hv, hw]⟩

/-- A clash anywhere in the clause shows under some assignment. -/
theorem SourceExpr.exists_differ {p : Prec} (e : SourceExpr p) (h : e.leaves.Nodup)
    (hclash : e.clashFree = false) : ∃ v, e.build.holds v ≠ e.holds v := by
  induction e with
  | element e => cases hclash
  | not e ih =>
      obtain ⟨v, hv⟩ := ih h hclash
      exact ⟨v, by simpa [build, holds] using hv⟩
  | paren e ih =>
      obtain ⟨v, hv⟩ := ih h hclash
      exact ⟨v, by simpa [build, holds] using hv⟩
  | ofNot e ih => exact ih h hclash
  | and l r ihl ihr =>
      obtain ⟨hnl, hnr, hdisjoint⟩ := List.nodup_append'.mp h
      by_cases hc : Clash l.build r.build
      · -- spliced: the tree is a disjunction where the clause is a conjunction
        obtain ⟨v, hv⟩ := l.exists_holds hnl true
        obtain ⟨w, hw⟩ := r.exists_holds hnr false
        obtain ⟨u, hl, hr⟩ := split_holds hdisjoint v w
        exact ⟨u, by simp [build, holds, holds_makeAnd_of_clash _ hc, hl, hr, hv, hw]⟩
      · -- a clash inside one operand: hold the other operand true
        by_cases hcl : l.clashFree = false
        · obtain ⟨v, hv⟩ := ihl hnl hcl
          obtain ⟨w, hw⟩ := r.exists_holds hnr true
          obtain ⟨u, hl, hr⟩ := split_holds hdisjoint v w
          exact ⟨u, by simpa [build, holds, holds_makeAnd _ hc, hl, hr, hw] using hv⟩
        · have hcr : r.clashFree = false := by
            by_contra hcr
            have hfree := (clash_iff (by simpa using hcl) (by simpa using hcr)).not.mp hc
            simp_all [clashFree]
          obtain ⟨v, hv⟩ := l.exists_holds hnl true
          obtain ⟨w, hw⟩ := ihr hnr hcr
          obtain ⟨u, hl, hr⟩ := split_holds hdisjoint v w
          exact ⟨u, by simpa [build, holds, holds_makeAnd _ hc, hl, hr, hv] using hw⟩
  | ofAnd e ih => exact ih h hclash
  | or l r ihl ihr =>
      obtain ⟨hnl, hnr, hdisjoint⟩ := List.nodup_append'.mp h
      by_cases hcl : l.clashFree = false
      · obtain ⟨v, hv⟩ := ihl hnl hcl
        obtain ⟨w, hw⟩ := r.exists_holds hnr false
        obtain ⟨u, hl, hr⟩ := split_holds hdisjoint v w
        exact ⟨u, by simpa [holds_build_or, holds, hl, hr, hw] using hv⟩
      · have hcr : r.clashFree = false := by simp_all [clashFree]
        obtain ⟨v, hv⟩ := l.exists_holds hnl false
        obtain ⟨w, hw⟩ := ihr hnr hcr
        obtain ⟨u, hl, hr⟩ := split_holds hdisjoint v w
        exact ⟨u, by simpa [holds_build_or, holds, hl, hr, hv] using hw⟩

/-- A clash-free clause is parsed into a tree of the same truth value under
every assignment, and of the clauses that write no leaf twice only the
clash-free ones are. -/
theorem parsed_tree_means_source (e : SourceExpr .or) :
    (e.clashFree = true → ∀ v, e.build.holds v = e.holds v) ∧
      (e.leaves.Nodup → (∀ v, e.build.holds v = e.holds v) → e.clashFree = true) := by
  refine ⟨fun h v => e.holds_build h v, ?_⟩
  intro hnodup hsame
  by_contra hclash
  obtain ⟨v, hv⟩ := e.exists_differ hnodup (by simpa using hclash)
  exact hv (hsame v)

/-- `NOT a IS NOT NULL AND (NOT b IS NOT NULL)`: the parentheses keep the two
tests apart. -/
def groupedNullTests : SourceExpr .or :=
  .ofAnd (.and (.ofNot (.not (.element (.isNotNull "a"))))
    (.paren (.ofAnd (.ofNot (.not (.element (.isNotNull "b")))))))

theorem groupedNullTests_mean_source :
    groupedNullTests.leaves.Nodup ∧
      ∀ v, groupedNullTests.build.holds v = groupedNullTests.holds v :=
  ⟨by decide, (parsed_tree_means_source groupedNullTests).1 (by decide)⟩

/-- `NOT a IS NOT NULL AND NOT b IS NOT NULL`. -/
def splicedNullTests : SourceExpr .or :=
  .ofAnd (.and (.ofNot (.not (.element (.isNotNull "a")))) (.not (.element (.isNotNull "b"))))

/-- With `a` absent and `b` present the clause is false and its tree true. -/
theorem splicedNullTests_differ :
    ¬ ∀ v, splicedNullTests.build.holds v = splicedNullTests.holds v := by
  intro h
  have hdiffer := h fun l => l = ⟨"b", .attributeExists⟩
  revert hdiffer
  decide

end DdbShell
