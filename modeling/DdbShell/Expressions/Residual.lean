import DdbShell.Expressions.PartMeaning
import DdbShell.Expressions.Spine

/-!
A tree against one of its parts. A part that keeps every OR drops nothing but
spine leaves; when each of these stands outside all negated ANDs, the tree is
the conjunction of the dropped leaves and the part.
-/

namespace DdbShell

open Infix (join)

namespace LogicalExpression

def spineHolds (v : Leaf → Bool) (s : Bool × Leaf) : Bool := xor s.1 (v s.2)

/-- The spine leaves a part does not render. -/
def dropped (q : Part) (e : LogicalExpression) : List (Bool × Leaf) :=
  e.spine.filter fun s => !q.keep s.1 s.2

mutual

/-- Every spine leaf the part drops stands outside all negated ANDs. -/
def dropsPositive (q : Part) : LogicalExpression → Bool
  | .leaf .. | .or .. => true
  | .and negate _ exprlist =>
      if negate then (spineAll exprlist).all fun s => q.keep s.1 s.2
      else dropsPositiveAll q exprlist

def dropsPositiveAll (q : Part) : List LogicalExpression → Bool
  | [] => true
  | e :: es => e.dropsPositive q && dropsPositiveAll q es

end

theorem dropsPositiveAll_eq_all (q : Part) (es : List LogicalExpression) :
    dropsPositiveAll q es = es.all (dropsPositive q) := by
  induction es with
  | nil => rfl
  | cons e es ih => rw [dropsPositiveAll, ih, List.all_cons]

/-- A part that drops nothing is the whole tree. -/
theorem Grown.partHolds_of_keep {q : Part} (hor : q.keepOr = true) {e : LogicalExpression}
    (h : Grown e) (hkeep : ∀ s ∈ e.spine, q.keep s.1 s.2 = true) :
    e.vacant q = false ∧ ∀ v, e.partHolds q v = e.holds v := by
  induction e using induct with
  | leaf negate parens l =>
      have hk : q.keep negate l = true := hkeep (negate, l) (by simp [spine])
      exact ⟨by simp [vacant, hk], fun v => by simp [partHolds, holds, hk]⟩
  | or negate parens es ih =>
      exact ⟨by simp [vacant, hor], fun v => by simp [partHolds, hor]⟩
  | and negate parens es ih =>
      cases h with
      | and size children grouped bare =>
          have hchild : ∀ e ∈ es, e.vacant q = false ∧ ∀ v, e.partHolds q v = e.holds v := by
            intro e he
            refine ih e he (children e he) ?_
            intro s hs
            exact hkeep s (mem_spineAll.mpr ⟨e, he, hs⟩)
          have hsome : vacantAll q es = false := by
            cases es with
            | nil => exact absurd size (by simp)
            | cons e rest => simp [vacantAll, (hchild e (by simp)).1]
          refine ⟨by simp [vacant, hsome], fun v => ?_⟩
          have hall : partAllHold q v es = allHold v es := by
            rw [partAllHold_eq_all, allHold_eq_all, Bool.eq_iff_iff, List.all_eq_true,
              List.all_eq_true]
            exact forall₂_congr fun e he => by rw [(hchild e he).2]
          simp [partHolds, holds, hsome, hall]

theorem partAllHold_of_vacantAll {q : Part} {es : List LogicalExpression}
    (h : vacantAll q es = true) (v : Leaf → Bool) : partAllHold q v es = true := by
  rw [vacantAll_eq_all, List.all_eq_true] at h
  rw [partAllHold_eq_all, List.all_eq_true]
  intro e he
  exact partHolds_of_vacant (h e he) v

/-- A part that keeps every leaf outside the ORs renders the whole tree. -/
theorem Grown.part_of_keep {q : Part} (hor : q.keepOr = true) {e : LogicalExpression}
    (h : Grown e) (hkeep : ∀ s ∈ e.spine, q.keep s.1 s.2 = true) :
    e.part q = e.tokens ∧ e.vacant q = false ∧ e.partFull q = true := by
  induction e using induct with
  | leaf negate parens l =>
      have hk : q.keep negate l = true := hkeep (negate, l) (by simp [spine])
      exact ⟨by simp [part, hk], by simp [vacant, hk], rfl⟩
  | or negate parens es ih => exact ⟨by simp [part, hor], by simp [vacant, hor], rfl⟩
  | and negate parens es ih =>
      cases h with
      | and size children grouped bare =>
          have hchild : ∀ e ∈ es,
              e.part q = e.tokens ∧ e.vacant q = false ∧ e.partFull q = true := by
            intro e he
            apply ih e he (children e he)
            intro s hs
            exact hkeep s (mem_spineAll.mpr ⟨e, he, hs⟩)
          have hall : (partAll q es).filter (fun ts => !ts.isEmpty) = tokensAll es := by
            rw [partAll_eq_map, tokensAll_eq_map,
              List.map_congr_left fun e he => (hchild e he).1, List.filter_eq_self]
            intro ts hts
            obtain ⟨e, he, rfl⟩ := List.mem_map.mp hts
            simp [(children e he).tokens_ne_nil]
          have hvacant : vacantAll q es = false := by
            rw [vacantAll_eq_all, List.all_eq_false]
            obtain ⟨e, he⟩ := List.exists_mem_of_length_pos (show 0 < es.length by omega)
            exact ⟨e, he, by simp [(hchild e he).2.1]⟩
          have hgroup : groupedTokens parens (join .and (tokensAll es)) ≠ [] := by
            have hjoin := join_tokensAll_ne_nil .and size
            cases parens <;> simp [groupedTokens, hjoin]
          refine ⟨?_, by simp [vacant, hvacant], ?_⟩
          · rw [part, hall, tokens, presentTokens, List.isEmpty_eq_false_iff.mpr hgroup,
              if_neg (by simp)]
          · simp only [partFull, hvacant, Bool.and_false, Bool.not_false, Bool.true_and,
              partFullAll_eq_all, List.all_eq_true]
            exact fun e he => (hchild e he).2.2

/-- An AND that is not negated holds when its children's parts do, rendered
or not. -/
theorem partHolds_and_false (q : Part) (v : Leaf → Bool) (parens : Bool)
    (es : List LogicalExpression) :
    (LogicalExpression.and false parens es).partHolds q v = partAllHold q v es := by
  cases hv : vacantAll q es with
  | false => simp [partHolds, hv]
  | true => simp [partHolds, partAllHold_of_vacantAll hv]

theorem dropped_and (q : Part) (negate parens : Bool) (es : List LogicalExpression) :
    (LogicalExpression.and negate parens es).dropped q = es.flatMap (dropped q) := by
  rw [dropped, spine, spineAll_eq_flatMap, List.filter_flatMap]
  rfl

/-- The dropped leaves and the part together are the tree. -/
theorem Grown.holds_eq_dropped_and_part {q : Part} (hor : q.keepOr = true)
    {e : LogicalExpression} (h : Grown e) (hpos : e.dropsPositive q = true) (v : Leaf → Bool) :
    e.holds v = ((e.dropped q).all (spineHolds v) && e.partHolds q v) := by
  induction e using induct with
  | leaf negate parens l =>
      cases hk : q.keep negate l <;> simp [dropped, spine, hk, partHolds, holds, spineHolds]
  | or negate parens es ih => simp [dropped, spine, partHolds, hor]
  | and negate parens es ih =>
      cases negate with
      | true =>
          have hkeep : ∀ s ∈ (LogicalExpression.and true parens es).spine,
              q.keep s.1 s.2 = true := by
            rw [dropsPositive, if_pos rfl, List.all_eq_true] at hpos
            exact hpos
          have hnone : (LogicalExpression.and true parens es).dropped q = [] := by
            rw [dropped, List.filter_eq_nil_iff]
            intro s hs
            simp [hkeep s hs]
          rw [hnone, (h.partHolds_of_keep hor hkeep).2]
          simp
      | false =>
          cases h with
          | and size children grouped bare =>
              rw [dropsPositive, if_neg (by simp), dropsPositiveAll_eq_all,
                List.all_eq_true] at hpos
              rw [dropped_and, partHolds_and_false, holds, Bool.false_xor, allHold_eq_all,
                partAllHold_eq_all, List.all_flatMap]
              rw [Bool.eq_iff_iff, Bool.and_eq_true, List.all_eq_true, List.all_eq_true,
                List.all_eq_true, ← forall₂_and]
              refine forall₂_congr fun e he => ?_
              rw [ih e he (children e he) (hpos e he), Bool.and_eq_true]

/-! ### The positive spine -/

mutual

/-- The leaves that a conjunction of the whole tree asks for: below non-negated
ANDs only. -/
def positiveSpine : LogicalExpression → List (Bool × Leaf)
  | .leaf negate _ l => [(negate, l)]
  | .and negate _ exprlist => if negate then [] else positiveSpineAll exprlist
  | .or .. => []

def positiveSpineAll : List LogicalExpression → List (Bool × Leaf)
  | [] => []
  | e :: es => e.positiveSpine ++ positiveSpineAll es

end

theorem mem_positiveSpineAll {es : List LogicalExpression} {s : Bool × Leaf} :
    s ∈ positiveSpineAll es ↔ ∃ e ∈ es, s ∈ e.positiveSpine := by
  induction es with
  | nil => simp [positiveSpineAll]
  | cons e es ih => simp [positiveSpineAll, ih]

theorem mem_spine_of_positiveSpine {e : LogicalExpression} {s : Bool × Leaf}
    (h : s ∈ e.positiveSpine) : s ∈ e.spine := by
  induction e using induct with
  | leaf negate parens l => exact h
  | or negate parens es ih => exact h
  | and negate parens es ih =>
      cases negate with
      | true => cases h
      | false =>
          obtain ⟨e, he, hs⟩ := mem_positiveSpineAll.mp h
          exact mem_spineAll.mpr ⟨e, he, ih e he hs⟩

theorem mem_positiveSpine_of_dropped {q : Part} {e : LogicalExpression}
    (hpos : e.dropsPositive q = true) {s : Bool × Leaf} (hs : s ∈ e.dropped q) :
    s ∈ e.positiveSpine := by
  induction e using induct with
  | leaf negate parens l => exact (List.mem_filter.mp hs).1
  | or negate parens es ih => exact (List.mem_filter.mp hs).1
  | and negate parens es ih =>
      cases negate with
      | true =>
          rw [dropsPositive, if_pos rfl, List.all_eq_true] at hpos
          obtain ⟨hspine, hdrop⟩ := List.mem_filter.mp hs
          simp [hpos s hspine] at hdrop
      | false =>
          rw [dropsPositive, if_neg (by simp), dropsPositiveAll_eq_all, List.all_eq_true] at hpos
          rw [dropped_and] at hs
          obtain ⟨e, he, hse⟩ := List.mem_flatMap.mp hs
          exact mem_positiveSpineAll.mpr ⟨e, he, ih e he (hpos e he) hse⟩

/-- A part that holds makes the positive-spine leaves it keeps hold. -/
theorem spineHolds_of_partHolds {q : Part} {e : LogicalExpression} {v : Leaf → Bool}
    (h : e.partHolds q v = true) {s : Bool × Leaf} (hs : s ∈ e.positiveSpine)
    (hkeep : q.keep s.1 s.2 = true) : spineHolds v s = true := by
  induction e using induct with
  | leaf negate parens l =>
      rw [positiveSpine, List.mem_singleton] at hs
      subst hs
      rw [partHolds, if_pos hkeep] at h
      exact h
  | or negate parens es ih => cases hs
  | and negate parens es ih =>
      cases negate with
      | true => cases hs
      | false =>
          rw [partHolds_and_false, partAllHold_eq_all, List.all_eq_true] at h
          obtain ⟨e, he, hse⟩ := mem_positiveSpineAll.mp hs
          exact ih e he (h e he) hse

theorem spineHolds_of_holds {e : LogicalExpression} {v : Leaf → Bool} (h : e.holds v = true)
    {s : Bool × Leaf} (hs : s ∈ e.positiveSpine) : spineHolds v s = true := by
  induction e using induct with
  | leaf negate parens l =>
      rw [positiveSpine, List.mem_singleton] at hs
      subst hs
      exact h
  | or negate parens es ih => cases hs
  | and negate parens es ih =>
      cases negate with
      | true => cases hs
      | false =>
          rw [holds, Bool.false_xor, allHold_eq_all, List.all_eq_true] at h
          obtain ⟨e, he, hse⟩ := mem_positiveSpineAll.mp hs
          exact ih e he (h e he) hse

end LogicalExpression

end DdbShell
