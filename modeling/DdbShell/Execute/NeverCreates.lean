import DdbShell.Execute.AliasExact
import DdbShell.Execute.ExistenceCheck

/-!
Which UPDATE cannot create an item. The condition of a request is read back
from its text, under the names and values of the request itself, and evaluated
on a key that holds no item: it is false there unless the clause escapes the
guard.
-/

namespace DdbShell

open Infix (Denotes)
open LogicalExpression
open SymbolTable

/-- What a request promises about a key that holds no item: it carries a
condition, which can be read and is false there. -/
def NeverCreates (svc : Service) (request : Emitted) (condition : Option String) : Prop :=
  ∃ text c, condition = some text ∧ readConditionExpression request.aliases text = some c ∧
    c.eval (svc.conditionHolds .missing) = false

/-- The clause of a command escapes the guard. -/
def escapes (clause : Option (SourceExpr .or)) : Bool := clause.any fun c => c.build.escapesGuard

theorem conditionHolds_missing (svc : Service) (l : Leaf) :
    svc.conditionHolds .missing l.condition = missingVerdict l := by
  obtain ⟨lhs, predicate⟩ := l
  cases predicate with
  | comparison op rhs => cases op <;> rfl
  | _ => rfl

section Update

variable {cmd : UpdateCmd} {clause : Option (SourceExpr .or)}

/-- The condition of an UPDATE is one condition, and on a missing item it is
what escapes the guard. -/
theorem updateTokens_denotes (hclause : cmd.condition = parsedWhere clause)
    (hupdate : cmd.upsert = false) (pk rk : String) :
    ∃ p f full, Denotes p (updateTokens cmd pk rk) f full ∧ f missingVerdict = escapes clause := by
  rw [updateTokens, hupdate, if_neg (by simp), hclause]
  cases clause with
  | none => exact ⟨_, _, _, existsTokens_denotes pk, rfl⟩
  | some c =>
      obtain ⟨p, full, hdenotes⟩ := c.grown_build.1.denotes_guard pk rk
      exact ⟨p, _, full, hdenotes, guardedHolds_missing c.build pk rk⟩

theorem makeUpdateRequest_neverCreates_iff (svc : Service)
    (hclause : cmd.condition = parsedWhere clause) (hupdate : cmd.upsert = false)
    (hpaths : clausePaths clause = true) {pk : String} (hpk : (operandPath pk).isSome = true)
    (rk : String) {st : SymbolTable} (hst : Valid st) :
    NeverCreates svc (makeUpdateRequest cmd pk rk st).1.emitted
        (makeUpdateRequest cmd pk rk st).1.conditionExpression ↔ escapes clause = false := by
  obtain ⟨hst1, _⟩ := (updateExpression_mints cmd.mutation).grows st hst
  obtain ⟨hst2, _⟩ := (updateCondition_mints cmd pk rk).grows _ hst1
  obtain ⟨p, f, full, hdenotes, hmissing⟩ := updateTokens_denotes hclause hupdate pk rk
  rw [updateCondition_eq hclause] at hst2
  obtain ⟨c, hread, _, heval⟩ := readConditionExpression_spell hdenotes
    (fun l hl => wellFormed_updateTokens hclause hpaths hpk rk l hl) hst1 hst2 (Extends.refl _)
  have haliases : (makeUpdateRequest cmd pk rk st).1.emitted.aliases =
      (spell (updateTokens cmd pk rk) (updateExpression cmd.mutation st).2).2.aliases := by
    rw [← updateCondition_eq hclause]
    exact emitted_aliases _ _
  have hvalue : c.eval (svc.conditionHolds .missing) = escapes clause := by
    rw [heval, funext (conditionHolds_missing svc), ← hmissing]
  rw [NeverCreates, makeUpdateRequest_condition hclause, nonEmpty,
    if_pos (mt (spell_eq_empty_iff _ _).mp hdenotes.ne_nil), haliases]
  simp only [Option.some.injEq, ← hvalue]
  constructor
  · rintro ⟨text, c', rfl, hread', hfalse⟩
    rw [hread] at hread'
    cases hread'
    exact hfalse
  · intro hfalse
    exact ⟨_, c, rfl, hread, hfalse⟩

end Update

/-- The key that a write is sent for is in no expression. -/
theorem neverCreates_keyed (svc : Service) (r : UpdateItemIn) (key : ValueMap) :
    NeverCreates svc { r with key := key }.emitted { r with key := key }.conditionExpression ↔
      NeverCreates svc r.emitted r.conditionExpression :=
  Iff.rfl

/-- A transactional update carries the expressions of the standalone request. -/
theorem buildTransactUpdate_emitted {cmd : UpdateCmd} {describe : DescribeTable}
    {aliasPrefix : String} {schema : ResolvedKeySchema} {update : TransactUpdate}
    (hschema : getKeySchema describe cmd.table "" = .ok schema)
    (h : buildTransactUpdate cmd describe aliasPrefix = .ok update) :
    let request := (makeUpdateRequest cmd (schema.pk.headD "") (schema.rk.headD "")
      ⟨aliasPrefix, 1, 1, ∅, ∅⟩).1
    update.emitted = request.emitted ∧
      update.conditionExpression = request.conditionExpression := by
  obtain ⟨schema', hschema', h⟩ := bind_eq_ok h
  rw [hschema] at hschema'
  cases hschema'
  cases hcondition : cmd.condition with
  | none =>
      rw [hcondition] at h
      cases h
  | some w =>
      rw [hcondition] at h
      dsimp only at h
      split at h
      · cases h
      · cases h
        exact ⟨rfl, rfl⟩

/-- With operands that are document paths, no request of an UPDATE creates an
item exactly when no disjunct of the clause escapes the guard: neither the
standalone write, for whatever key it is sent, nor the entry of a transaction. -/
theorem update_never_creates_iff (svc : Service) (cmd : UpdateCmd)
    (clause : Option (SourceExpr .or)) (hclause : cmd.condition = parsedWhere clause)
    (hupdate : cmd.upsert = false) (hpaths : clausePaths clause = true) :
    (∀ (pk rk : String) (key : ValueMap) (st : SymbolTable),
      (operandPath pk).isSome = true → Valid st →
        let request := { (makeUpdateRequest cmd pk rk st).1 with key := key }
        (NeverCreates svc request.emitted request.conditionExpression ↔
          escapes clause = false)) ∧
    (∀ (describe : DescribeTable) (schema : ResolvedKeySchema) (counter : Nat)
        (update : TransactUpdate),
      getKeySchema describe cmd.table "" = .ok schema →
        (operandPath (schema.pk.headD "")).isSome = true →
          buildTransactUpdate cmd describe (uniquePrefix counter) = .ok update →
            (NeverCreates svc update.emitted update.conditionExpression ↔
              escapes clause = false)) := by
  constructor
  · intro pk rk key st hpk hst
    refine (neverCreates_keyed svc _ key).trans ?_
    exact makeUpdateRequest_neverCreates_iff svc hclause hupdate hpaths hpk rk hst
  · intro describe schema counter update hschema hpk hbuild
    obtain ⟨hemitted, hcondition⟩ := buildTransactUpdate_emitted hschema hbuild
    rw [hemitted, hcondition]
    exact makeUpdateRequest_neverCreates_iff svc hclause hupdate hpaths hpk _ (valid_fresh counter)

/-- The write of one item, with `pk` for the key of the table. -/
def writeToPk (cmd : UpdateCmd) : UpdateItemIn :=
  { (makeUpdateRequest cmd "pk" "" ⟨uniquePrefix 0, 1, 1, ∅, ∅⟩).1 with key := [("pk", .N "7")] }

/-- `a = 1 AND b <> 2` -/
def guardedClause : SourceExpr .or :=
  .ofAnd (.and (.ofNot (.element (.comparison "a" (.op .equal) (.N "1"))))
    (.element (.comparison "b" (.op .notEqual) (.N "2"))))

/-- `UPDATE t SET n = 1 WHERE a = 1 AND b <> 2` -/
def guardedUpdate : UpdateCmd :=
  { table := "t"
    mutation := .set [{ lhs := "n", rhsValue := some (.N "1") }]
    condition := parsedWhere (some guardedClause) }

theorem guardedUpdate_never_creates :
    guardedUpdate.upsert = false ∧ escapes (some guardedClause) = false ∧
      NeverCreates .verbatim (writeToPk guardedUpdate).emitted
        (writeToPk guardedUpdate).conditionExpression := by
  have hnone : escapes (some guardedClause) = false := by decide
  refine ⟨rfl, hnone, ?_⟩
  exact ((update_never_creates_iff .verbatim guardedUpdate (some guardedClause) rfl rfl
    (by decide +kernel)).1 "pk" "" [("pk", .N "7")] _ (by decide +kernel)
      (valid_fresh 0)).mpr hnone

/-- `a = 1 OR b <> 2` -/
def escapingClause : SourceExpr .or :=
  .or (.ofAnd (.ofNot (.element (.comparison "a" (.op .equal) (.N "1")))))
    (.ofNot (.element (.comparison "b" (.op .notEqual) (.N "2"))))

/-- `UPDATE t SET n = 1 WHERE a = 1 OR b <> 2` -/
def escapingUpdate : UpdateCmd :=
  { table := "t"
    mutation := .set [{ lhs := "n", rhsValue := some (.N "1") }]
    condition := parsedWhere (some escapingClause) }

/-- Its condition reads `(attribute_exists(pk) AND a = 1) OR b <> 2`, which is
true where there is no item. -/
theorem escapingUpdate_creates :
    ¬ NeverCreates .verbatim (writeToPk escapingUpdate).emitted
      (writeToPk escapingUpdate).conditionExpression := by
  have hpk : (operandPath "pk").isSome = true := by decide +kernel
  have hclause : escapingUpdate.condition = parsedWhere (some escapingClause) := rfl
  have hiff := makeUpdateRequest_neverCreates_iff .verbatim hclause rfl (by decide +kernel) hpk ""
    (valid_fresh 0)
  intro h
  have hnone := hiff.mp ((neverCreates_keyed _ _ _).mp h)
  revert hnone
  decide

end DdbShell
