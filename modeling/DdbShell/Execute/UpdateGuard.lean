import DdbShell.Execute.Requests
import DdbShell.Expressions.PartMeaning
import DdbShell.Service

/-!
The condition of an UpdateItem. UPDATE asks first that the item exist, and the
residual of the WHERE clause follows after ` AND ` without parentheses of its
own. AND binds tighter than OR, so of an unparenthesised OR only the first
disjunct is guarded.
-/

namespace DdbShell

open Infix (Token Denotes truth join)
open LogicalExpression

def existsTokens (pk : String) : Tokens := [.atom ⟨pk, .attributeExists⟩]

/-- The guard in front of what is left of the clause. -/
def guardTokens (pk : String) (residual : Tokens) : Tokens :=
  existsTokens pk ++ if residual.isEmpty then [] else .and :: residual

def residualTokens (pk rk : String) : Option Where → Tokens
  | none => []
  | some w => w.root.part (conditionPart pk rk)

def updateTokens (cmd : UpdateCmd) (pk rk : String) : Tokens :=
  if cmd.upsert then residualTokens pk rk cmd.condition
  else guardTokens pk (residualTokens pk rk cmd.condition)

/-- The clause of a command as the grammar built it. -/
def parsedWhere (clause : Option (SourceExpr .or)) : Option Where :=
  clause.map fun c => ⟨c.build⟩

theorem existsGuard_eq (pk : String) : existsGuard false pk = spell (existsTokens pk) := by
  funext st
  simp [existsGuard, existsTokens, spell, Leaf.doSerialize]

theorem spell_guardTokens (pk : String) (residual : Tokens) (st : SymbolTable) :
    spell (guardTokens pk residual) st =
      (guardedBy (spell (existsTokens pk) st).1 (spell residual (spell (existsTokens pk) st).2).1,
        (spell residual (spell (existsTokens pk) st).2).2) := by
  have hguard := mt (spell_eq_empty_iff (existsTokens pk) st).mp (by simp [existsTokens])
  cases residual with
  | nil =>
      simp only [guardTokens, List.isEmpty_nil, if_true, List.append_nil, guardedBy, spell,
        Alias.pure_apply]
      rfl
  | cons t ts =>
      have hqf := mt (spell_eq_empty_iff (t :: ts) (spell (existsTokens pk) st).2).mp (by simp)
      rw [guardTokens, List.isEmpty_cons, if_neg (by simp), spell_append, guardedBy, if_neg hqf,
        if_neg hguard]
      simp [spell, String.append_assoc]

/-- The condition text is the spelling of its tokens. -/
theorem updateCondition_eq {cmd : UpdateCmd} {clause : Option (SourceExpr .or)}
    (h : cmd.condition = parsedWhere clause) (pk rk : String) :
    updateCondition cmd pk rk = spell (updateTokens cmd pk rk) := by
  funext st
  have hresidual : ∀ w ∈ cmd.condition,
      w.updateDeleteConditionCheck pk rk = spell (w.root.part (conditionPart pk rk)) := by
    intro w hw
    rw [h] at hw
    obtain ⟨c, _, rfl⟩ := Option.map_eq_some_iff.mp hw
    funext st
    exact (renders_condition pk rk).eq_spell _ c.grown_build.1 st
  cases hc : cmd.condition with
  | none =>
      cases hu : cmd.upsert with
      | true => simp [updateCondition, updateTokens, hc, hu, residualTokens, existsGuard, spell]
      | false =>
          simp [updateCondition, updateTokens, hc, hu, residualTokens, guardTokens, existsGuard_eq]
  | some w =>
      have hw := hresidual w hc
      cases hu : cmd.upsert with
      | true =>
          have hplain : ∀ qf, guardedBy "" qf = qf := by
            intro qf
            by_cases hqf : qf = "" <;> simp [guardedBy, hqf]
          simp only [updateCondition, updateTokens, hc, hu, residualTokens, existsGuard, hw,
            if_true, Alias.bind_apply, Alias.pure_apply, hplain]
          rfl
      | false =>
          simp [updateCondition, updateTokens, hc, hu, residualTokens, existsGuard_eq, hw,
            spell_guardTokens]

/-! ### On a key that holds no item -/

/-- What one predicate says of a missing item. -/
def missingVerdict (l : Leaf) : Bool :=
  match l.predicate with
  | .comparison .notEqual _ => true
  | _ => false

/-- The clause is an OR without parentheses, and a disjunct after the first is
true of a missing item. -/
def LogicalExpression.escapesGuard : LogicalExpression → Bool
  | .or false false (_ :: rest) => anyHolds missingVerdict rest
  | _ => false

/-- A residual that is no bare OR is guarded as a whole. -/
theorem guard_of_denotes_and (pk : String) {residual : Tokens} {f : (Leaf → Bool) → Bool}
    {b : Bool} (h : Denotes .and residual f b) :
    Denotes .and (guardTokens pk residual) (fun v => v ⟨pk, .attributeExists⟩ && f v) b := by
  have hexists : Denotes .not (existsTokens pk) (fun v => v ⟨pk, .attributeExists⟩) true :=
    .atom _
  have hne := h.ne_nil
  rw [guardTokens, List.isEmpty_eq_false_iff.mpr hne, if_neg (by simp)]
  exact (hexists.toAnd.append_and h).congr (fun _ => rfl) (by simp)

/-- Of a bare OR the guard covers the first disjunct. -/
theorem guard_of_bareOr (pk : String) {e : LogicalExpression} {rest : List LogicalExpression}
    (h : Grown (.or false false (e :: rest))) :
    Denotes .or (guardTokens pk (LogicalExpression.or false false (e :: rest)).tokens)
      (fun v => (v ⟨pk, .attributeExists⟩ && e.holds v) || anyHolds v rest) true := by
  cases h with
  | or size children grouped bare =>
      match rest, size with
      | e' :: rest, _ =>
          have hhead := denotes_child (children e (by simp)).denotes (grouped e (by simp))
          have htail := Denotes.join_or e' rest fun c hc =>
            (children c (List.mem_cons_of_mem _ hc)).denotes.toOr
          have hjoined := (guard_of_denotes_and pk hhead).toOr.append_or htail
          have htokens : guardTokens pk
              (LogicalExpression.or false false (e :: e' :: rest)).tokens =
                guardTokens pk e.tokens ++ .or :: join .or ((e' :: rest).map tokens) := by
            have hne := (children e (by simp)).tokens_ne_nil
            simp [tokens, negatedTokens, groupedTokens, tokensAll_eq_map, join, guardTokens, hne]
          rw [htokens]
          exact hjoined.congr (fun v => by rw [anyHolds_eq_any]) (by simp)

/-- The truth value of the guarded residual. -/
def LogicalExpression.guardedHolds (pk rk : String) (v : Leaf → Bool) : LogicalExpression → Bool
  | .or false false (e :: rest) =>
      (v ⟨pk, .attributeExists⟩ && e.holds v) || anyHolds v rest
  | e => v ⟨pk, .attributeExists⟩ && e.partHolds (conditionPart pk rk) v

/-- Everything but a bare OR is guarded as a whole. -/
theorem guardedHolds_of_not_bareOr {e : LogicalExpression} (h : ¬ ∃ es, e = .or false false es)
    (pk rk : String) (v : Leaf → Bool) :
    e.guardedHolds pk rk v =
      (v ⟨pk, .attributeExists⟩ && e.partHolds (conditionPart pk rk) v) := by
  cases e with
  | leaf negate parens l => rfl
  | and negate parens es => rfl
  | or negate parens es =>
      cases negate <;> cases parens
      · exact absurd ⟨es, rfl⟩ h
      all_goals rfl

/-- The guard and what is left of a clause read as one condition, with the truth
value `guardedHolds`. -/
theorem LogicalExpression.Grown.denotes_guard {e : LogicalExpression} (h : Grown e)
    (pk rk : String) :
    ∃ p full, Denotes p (guardTokens pk (e.part (conditionPart pk rk)))
      (fun v => e.guardedHolds pk rk v) full := by
  by_cases hbare : ∃ es, e = .or false false es
  · obtain ⟨es, rfl⟩ := hbare
    match es, h with
    | [], h =>
        cases h with
        | or size children grouped bare => simp at size
    | e :: rest, h => exact ⟨.or, true, guard_of_bareOr pk h⟩
  · cases hv : e.vacant (conditionPart pk rk) with
    | true =>
        -- nothing is left of the clause but the guard
        have hempty : (e.part (conditionPart pk rk)).isEmpty = true := by rw [h.part_isEmpty, hv]
        have hguard : guardTokens pk (e.part (conditionPart pk rk)) = existsTokens pk := by
          rw [guardTokens, hempty, if_pos rfl, List.append_nil]
        rw [hguard]
        refine ⟨.not, true, (Denotes.atom _).congr (fun v => ?_) rfl⟩
        rw [guardedHolds_of_not_bareOr hbare, partHolds_of_vacant hv, Bool.and_true]
    | false =>
        have hand := denotes_child (h.part_denotes hv) (h.isParenGroup_of_or hbare)
        refine ⟨_, _, (guard_of_denotes_and pk hand).congr (fun v => ?_) rfl⟩
        rw [guardedHolds_of_not_bareOr hbare]

theorem LogicalExpression.Grown.truth_guard {e : LogicalExpression} (h : Grown e) (pk rk : String)
    (v : Leaf → Bool) :
    truth v (guardTokens pk (e.part (conditionPart pk rk))) = some (e.guardedHolds pk rk v) := by
  obtain ⟨_, _, hdenotes⟩ := h.denotes_guard pk rk
  exact hdenotes.truth_eq v

/-- On a missing item the guarded condition is what escapes the guard. -/
theorem guardedHolds_missing (e : LogicalExpression) (pk rk : String) :
    e.guardedHolds pk rk missingVerdict = e.escapesGuard := by
  have hexists : missingVerdict ⟨pk, .attributeExists⟩ = false := rfl
  unfold guardedHolds escapesGuard
  split <;> simp_all

/-- On an item that is there the guard says nothing. -/
theorem guardedHolds_present {e : LogicalExpression} {pk rk : String} {v : Leaf → Bool}
    (h : v ⟨pk, .attributeExists⟩ = true) :
    e.guardedHolds pk rk v = e.partHolds (conditionPart pk rk) v := by
  unfold guardedHolds
  split
  · simp [h, partHolds, conditionPart, holds, anyHolds]
  · simp [h]

theorem makeUpdateRequest_condition {cmd : UpdateCmd} {clause : Option (SourceExpr .or)}
    (h : cmd.condition = parsedWhere clause) (pk rk : String) (st : SymbolTable) :
    (makeUpdateRequest cmd pk rk st).1.conditionExpression =
      nonEmpty (spell (updateTokens cmd pk rk) (updateExpression cmd.mutation st).2).1 := by
  rw [← updateCondition_eq h]
  rfl

end DdbShell
