import DdbShell.Execute.UpdateGuard
import DdbShell.Expressions.Residual
import DdbShell.Planner.QuerySplit

/-!
Bulk writes. The items of a clause are enumerated by a Query or a Scan and
then written one by one, each under the residual of the same clause against
the base key. The two renderings agree on an item as long as the residual
drops base-key leaves of the positive spine only: those were checked by the
enumeration and cannot change afterwards.
-/

namespace DdbShell

open Infix (truth)
open LogicalExpression

inductive BulkCmd where
  | update (cmd : UpdateCmd)
  | delete (cmd : DeleteCmd)

namespace BulkCmd

def condition : BulkCmd → Option Where
  | .update cmd => cmd.condition
  | .delete cmd => cmd.condition

/-- The ConditionExpression of every per-item write. -/
def conditionExpression (key : BaseKey) : BulkCmd → Alias (Option String)
  | .update cmd =>
      (fun r => r.conditionExpression) <$> makeUpdateRequest cmd key.pk key.rkName
  | .delete cmd =>
      (fun r => r.conditionExpression) <$> makeDeleteRequest cmd key.pk key.rkName

def tokens (key : BaseKey) : BulkCmd → Tokens
  | .update cmd => updateTokens cmd key.pk key.rkName
  | .delete cmd => residualTokens key.pk key.rkName cmd.condition

end BulkCmd

/-- The item was returned by the enumeration read: it satisfied the key
condition and the filter of the Query, or the filter of the Scan. -/
def Enumerated (svc : Service) (w : Where) (qplan : Option QueryKeyPlan) (item : Item) : Prop :=
  match qplan with
  | some plan =>
      truth (svc.leafHolds item) (w.root.part (keyConditionPart plan.view)) = some true ∧
        truth (svc.leafHolds item) (w.root.part (filterPart plan.view)) = some true
  | none => truth (svc.leafHolds item) w.root.tokens = some true

/-- Enumeration against the key schema `pk`, `rk` and per-item condition
agree: an unchanged item that satisfies the clause passes, and one that no
longer does fails. -/
def BulkAgrees (svc : Service) (key : BaseKey) (pk rk : List String) (cmd : BulkCmd) (w : Where) :
    Prop :=
  (∀ st, ∃ st', (cmd.conditionExpression key st).1 = nonEmpty (spell (cmd.tokens key) st').1) ∧
    ∀ item, Enumerated svc w (w.planQuery pk rk) item → (item key.pk).isSome = true →
      (svc.satisfies item w = true → truth (svc.leafHolds item) (cmd.tokens key) = some true) ∧
        ∀ item' : Item, (∀ name ∈ key.attributes, item' name = item name) →
          svc.satisfies item' w = false →
            truth (svc.leafHolds item') (cmd.tokens key) = some false

/-- The residual condition leaves out nothing but base-key leaves of the
positive spine. -/
def dropsBaseKey (key : BaseKey) (e : LogicalExpression) : Bool :=
  e.dropsPositive (conditionPart key.pk key.rkName) &&
    (e.dropped (conditionPart key.pk key.rkName)).all fun s => key.attributes.contains s.2.lhs

/-- A spine leaf that the conjunction asks for holds of every enumerated
item. -/
theorem spineHolds_of_enumerated {svc : Service} {w : Where} (hg : Grown w.root)
    {pk rk : List String} {item : Item} (h : Enumerated svc w (w.planQuery pk rk) item)
    {s : Bool × Leaf} (hs : s ∈ w.root.positiveSpine) :
    spineHolds (svc.leafHolds item) s = true := by
  cases hplan : w.planQuery pk rk with
  | none =>
      rw [hplan, Enumerated, hg.truth_tokens, Option.some.injEq] at h
      exact spineHolds_of_holds h hs
  | some plan =>
      rw [hplan, Enumerated, hg.truth_part, hg.truth_part, Option.some.injEq,
        Option.some.injEq] at h
      obtain ⟨_, _, _, hsafe, _⟩ := Where.planQuery_spec hplan
      have hsplit := inKeyCondition_eq_not_inFilter
        (leafQuerySafe_of_spine hsafe (mem_spine_of_positiveSpine hs))
      cases hf : s.2.inFilter plan.view s.1 with
      | true => exact spineHolds_of_partHolds h.2 hs hf
      | false =>
          have hkeep : s.2.inKeyCondition plan.view s.1 = true := by rw [hsplit, hf, Bool.not_false]
          exact spineHolds_of_partHolds h.1 hs hkeep

theorem leafHolds_congr {svc : Service} {item item' : Item} {l : Leaf}
    (h : item' l.lhs = item l.lhs) : svc.leafHolds item' l = svc.leafHolds item l := by
  unfold Service.leafHolds
  rw [h]

/-- The residual decides the clause on any later state of an enumerated item. -/
theorem partHolds_of_enumerated {svc : Service} {key : BaseKey} {w : Where} (hg : Grown w.root)
    (hdrop : dropsBaseKey key w.root = true) {pk rk : List String} {item item' : Item}
    (h : Enumerated svc w (w.planQuery pk rk) item)
    (hkey : ∀ name ∈ key.attributes, item' name = item name) :
    w.root.partHolds (conditionPart key.pk key.rkName) (svc.leafHolds item') =
      svc.satisfies item' w := by
  simp only [dropsBaseKey, Bool.and_eq_true, List.all_eq_true, List.contains_eq_mem,
    decide_eq_true_eq] at hdrop
  have hdropped : (w.root.dropped (conditionPart key.pk key.rkName)).all
      (spineHolds (svc.leafHolds item')) = true := by
    rw [List.all_eq_true]
    intro s hs
    have hpast := spineHolds_of_enumerated hg h (mem_positiveSpine_of_dropped hdrop.1 hs)
    rw [spineHolds, leafHolds_congr (hkey _ (hdrop.2 s hs))]
    exact hpast
  rw [Service.satisfies, hg.holds_eq_dropped_and_part rfl hdrop.1, hdropped, Bool.true_and]

theorem makeDeleteRequest_condition {cmd : DeleteCmd} {clause : SourceExpr .or}
    (h : cmd.condition = some ⟨clause.build⟩) (pk rk : String) (st : SymbolTable) :
    (makeDeleteRequest cmd pk rk st).1.conditionExpression =
      nonEmpty (spell (residualTokens pk rk cmd.condition) st).1 := by
  have hspell := (renders_condition pk rk).eq_spell _ clause.grown_build.1 st
  simp only [residualTokens, h, ← hspell]
  simp [makeDeleteRequest, deleteCondition, h, Where.updateDeleteConditionCheck]

theorem BulkCmd.conditionExpression_eq {cmd : BulkCmd} {clause : SourceExpr .or}
    (h : cmd.condition = some ⟨clause.build⟩) (key : BaseKey) (st : SymbolTable) :
    ∃ st', (cmd.conditionExpression key st).1 = nonEmpty (spell (cmd.tokens key) st').1 := by
  cases cmd with
  | update cmd =>
      have hclause : cmd.condition = parsedWhere (some clause) := h
      exact ⟨_, makeUpdateRequest_condition hclause key.pk key.rkName st⟩
  | delete cmd => exact ⟨st, makeDeleteRequest_condition h key.pk key.rkName st⟩

/-- On an item that is there the per-item condition is the residual. -/
theorem BulkCmd.truth_tokens {cmd : BulkCmd} {clause : SourceExpr .or}
    (h : cmd.condition = some ⟨clause.build⟩) (key : BaseKey) {v : Leaf → Bool}
    (hv : v ⟨key.pk, .attributeExists⟩ = true) :
    truth v (cmd.tokens key) =
      some (clause.build.partHolds (conditionPart key.pk key.rkName) v) := by
  have hg := clause.grown_build.1
  cases cmd with
  | delete cmd =>
      rw [tokens, show cmd.condition = some ⟨clause.build⟩ from h, residualTokens, hg.truth_part]
  | update cmd =>
      rw [tokens, updateTokens, show cmd.condition = some ⟨clause.build⟩ from h, residualTokens]
      cases cmd.upsert with
      | true => exact hg.truth_part _ _
      | false =>
          rw [if_neg (by simp), hg.truth_guard, guardedHolds_present hv]

/-- Enumeration and per-item condition agree for every clause whose residual
drops base-key leaves of the positive spine only. -/
theorem bulkWrite_agrees (svc : Service) (key : BaseKey) (pk rk : List String) (cmd : BulkCmd)
    (clause : SourceExpr .or) (hcmd : cmd.condition = some ⟨clause.build⟩)
    (hdrop : dropsBaseKey key clause.build = true) :
    BulkAgrees svc key pk rk cmd ⟨clause.build⟩ := by
  have hg := clause.grown_build.1
  refine ⟨BulkCmd.conditionExpression_eq hcmd key, fun item henum hpresent => ⟨?_, ?_⟩⟩
  · intro hsat
    have hexists : svc.leafHolds item ⟨key.pk, .attributeExists⟩ = true := hpresent
    rw [BulkCmd.truth_tokens hcmd key hexists,
      partHolds_of_enumerated hg hdrop henum fun _ _ => rfl, hsat]
  · intro item' hkey hsat
    have hexists : svc.leafHolds item' ⟨key.pk, .attributeExists⟩ = true := by
      rw [leafHolds_congr (hkey key.pk (by simp [BaseKey.attributes]))]
      exact hpresent
    rw [BulkCmd.truth_tokens hcmd key hexists, partHolds_of_enumerated hg hdrop henum hkey, hsat]

/-- `DELETE FROM t WHERE rk = 1 AND NOT (x = 2 AND y = 3)` -/
def positiveDelete : SourceExpr .or :=
  .ofAnd (.and (.ofNot (.element (.comparison "rk" (.op .equal) (.N "1"))))
    (.not (.paren (.ofAnd (.and (.ofNot (.element (.comparison "x" (.op .equal) (.N "2"))))
      (.element (.comparison "y" (.op .equal) (.N "3"))))))))

theorem positiveDelete_bulk_agrees :
    dropsBaseKey ⟨"pk", some "rk", by decide⟩ positiveDelete.build = true ∧
      BulkAgrees .verbatim ⟨"pk", some "rk", by decide⟩ ["pk"] ["rk"]
        (.delete { table := "t", condition := some ⟨positiveDelete.build⟩ })
        ⟨positiveDelete.build⟩ :=
  ⟨by decide, bulkWrite_agrees .verbatim _ ["pk"] ["rk"] _ positiveDelete rfl (by decide)⟩

/-- `NOT (rk = 1 AND x = 2)` -/
def negatedSortKey : SourceExpr .or :=
  .ofAnd (.ofNot (.not (.paren (.ofAnd (.and
    (.ofNot (.element (.comparison "rk" (.op .equal) (.N "1"))))
    (.element (.comparison "x" (.op .equal) (.N "2"))))))))

/-- The item `{pk: 7, rk: 0, x: 2}` satisfies it and is enumerated, but its
delete is conditioned on `NOT x = 2`. -/
theorem negatedSortKey_bulk_disagrees :
    ¬ BulkAgrees .verbatim ⟨"pk", some "rk", by decide⟩ ["pk"] ["rk"]
      (.delete { table := "t", condition := some ⟨negatedSortKey.build⟩ })
      ⟨negatedSortKey.build⟩ := by
  intro h
  have hitem := h.2 (fun name => if name = "pk" then some (.N "7") else
    if name = "rk" then some (.N "0") else if name = "x" then some (.N "2") else none)
  have hplan : (Where.mk negatedSortKey.build).planQuery ["pk"] ["rk"] = none := by decide
  rw [hplan] at hitem
  have hpass := (hitem (by unfold Enumerated; decide) (by decide)).1 (by decide)
  revert hpass
  decide

end DdbShell
