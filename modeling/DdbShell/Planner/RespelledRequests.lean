import DdbShell.Planner.Respelling

/-!
The requests of a respelled statement. For each builder: exactly when the choice
it makes and the key it sends are the same, and that the expressions it sends
are then true of the same items.
-/

namespace DdbShell

open Infix (Token truth)
open LogicalExpression
open Matches (ItemQuiet PlanQuiet WriteQuiet itemNames)

/-! ### SELECT -/

/-- What the classic access paths need of a respelling. -/
def AccessQuiet (index : Option String) (schema : ResolvedKeySchema) (c1 c2 : SourceExpr .or) :
    Prop :=
  (index.isNone = true → ItemQuiet (fun e => (Where.mk e).canGetitem schema.pk schema.rk)
      schema.pk schema.rk c1.build c2.build) ∧
    (getItemServes index schema c1 = false → PlanQuiet schema.pk schema.rk c1.build c2.build)

/-- A vector search and a failed lookup need nothing. -/
def SelectQuiet (cmd : SelectCmd) (describe : DescribeTable) (c1 c2 : SourceExpr .or) : Prop :=
  cmd.searchVector.isSome ∨ onVectorIndex cmd describe ∨
    ∀ schema, getKeySchema describe cmd.table (cmd.index.getD "") = .ok schema →
      AccessQuiet cmd.index schema c1 c2

section Pair

variable {c1 c2 : SourceExpr .or} (h : Respelled c1 c2)

include h

theorem respelled_plansTogether (schema : ResolvedKeySchema) : PlansTogether schema c1 c2 := by
  intro plan1 plan2 hplan1 hplan2
  obtain ⟨-, hprefix1, -, -, hpk1⟩ := Where.planQuery_spec hplan1
  obtain ⟨-, hprefix2, -, -, hpk2⟩ := Where.planQuery_spec hplan2
  simp only at hprefix1 hprefix2
  rw [h.matches_build.sortKeyPrefix_eq, hprefix2] at hprefix1
  cases plan1
  cases plan2
  simp_all

/-- A GetItem leaves no room for a gained equality, the name of a missing sort
key included. -/
theorem getItem_keyQuiet {pk rk : List String}
    (hcan : (Where.mk c1.build).canGetitem pk rk = true)
    (hgains : gains (itemNames pk rk) c1.build c2.build = false) :
    KeyQuiet (pk.headD "") (rk.headD "") c1.build c2.build := by
  have hmatches := h.matches_build
  match pk, rk, hcan with
  | [p], r :: rest, hcan =>
      constructor
      · exact hmatches.firstEquality_eq (by simp [itemNames]) hgains
      · exact hmatches.firstEquality_eq (by simp [itemNames]) hgains
  | [p], [], hcan =>
      refine ⟨hmatches.firstEquality_eq (by simp [itemNames]) hgains, ?_⟩
      simp only [Where.canGetitem, Bool.and_eq_true, decide_eq_true_eq,
        countGudKey_eq_countP] at hcan
      have hlength := spine_length_le c1.build
      obtain ⟨hsame, hmatch⟩ := hmatches.spine
      unfold firstEquality
      unfold spinePairs at hmatch
      -- the clause is one leaf, and that leaf is an equality
      cases hspine1 : c1.build.spine with
      | nil => simp [hspine1] at hcan
      | cons s rest1 =>
          cases hspine2 : c2.build.spine with
          | nil => simp [hspine1, hspine2] at hsame
          | cons t rest2 =>
              rw [hspine1, List.length_cons] at hlength
              rw [hspine1, hspine2, List.length_cons, List.length_cons] at hsame
              obtain rfl := List.eq_nil_of_length_eq_zero (show rest1.length = 0 by omega)
              obtain rfl := List.eq_nil_of_length_eq_zero (show rest2.length = 0 by
                rw [List.length_nil] at hsame
                omega)
              rw [hspine1, hspine2] at hmatch
              have hleaf : LeafMatches s t := hmatch (s, t) (by simp)
              have hkey : isKeyEquality p s = true := by simpa [hspine1] using hcan.2
              obtain ⟨rhs, rfl⟩ := isKeyEquality_iff.mp hkey
              rcases hleaf with rfl | rfl
              · rfl
              · rfl

/-- The classic access paths of respelled clauses. -/
theorem respelled_accessAlike_iff (index : Option String) (schema : ResolvedKeySchema) :
    AccessAlike SameItems index schema c1 c2 ↔ AccessQuiet index schema c1 c2 := by
  have hmatches := h.matches_build
  have hcan := hmatches.canGetitem_eq_iff schema.pk schema.rk
  have hplan := hmatches.planQuery_eq_iff schema.pk schema.rk
  have hserves : getItemServes index schema c1 = getItemServes index schema c2 ↔
      (index.isNone = true → ItemQuiet (fun e => (Where.mk e).canGetitem schema.pk schema.rk)
        schema.pk schema.rk c1.build c2.build) := by
    rw [← hcan, getItemServes, getItemServes]
    cases index <;> simp
  rw [AccessAlike, AccessQuiet, hserves]
  refine and_congr_right fun hitem => ?_
  cases hget : getItemServes index schema c1 with
  | true =>
      rw [getItemServes, Bool.and_eq_true] at hget
      simp only [if_true, Bool.true_eq_false, false_implies, iff_true]
      unfold Where.getGudKey
      rw [keyOf_getGudKey_eq_iff]
      exact getItem_keyQuiet h hget.2 (hitem hget.1 (.inl hget.2))
  | false =>
      simp only [Bool.false_eq_true, if_false, true_implies]
      rw [← hplan]
      cases hplan1 : (Where.mk c1.build).planQuery schema.pk schema.rk with
      | none => cases hplan2 : (Where.mk c2.build).planQuery schema.pk schema.rk <;> simp
      | some plan1 =>
          cases hplan2 : (Where.mk c2.build).planQuery schema.pk schema.rk with
          | none => simp
          | some plan2 =>
              obtain rfl := respelled_plansTogether h schema plan1 plan2 hplan1 hplan2
              simp only [iff_true]
              exact hmatches.sameItems_halves c1.grown_build.1 c2.grown_build.1 plan1.view

/-- The plans of a respelled SELECT are alike exactly when the respelling is
quiet. -/
theorem respelled_planSelect_iff (cmd : SelectCmd) (describe : DescribeTable) (p : String) :
    SelectsAlike SameItems c1 c2 (selectQueryPlan cmd describe c1)
        (planSelect (cmd.on c1) describe p) (planSelect (cmd.on c2) describe p) ↔
      SelectQuiet cmd describe c1 c2 := by
  have htokens := h.matches_build.sameItems_tokens c1.grown_build.1 c2.grown_build.1
  rw [planSelect_alike htokens (respelled_plansTogether h), PlansAlike, SelectQuiet]
  simp only [respelled_accessAlike_iff h]

end Pair

/-! ### UPDATE and DELETE -/

namespace BulkCmd

/-- The key schemas an enumeration may be planned against. -/
def Reads (cmd : BulkCmd) (base schema : ResolvedKeySchema) : Prop :=
  match cmd.index with
  | none => schema = base
  | some index => ∃ described : DescribeTableOut,
      getKeySchema (fun _ => .ok described) cmd.table index = .ok schema

/-- What the choice of a write needs of a respelling. -/
def AccessQuiet (cmd : BulkCmd) (base : ResolvedKeySchema) (c1 c2 : SourceExpr .or) : Prop :=
  ItemQuiet (fun e => (Where.mk e).canUpdateItem base.pk base.rk) base.pk base.rk c1.build
      c2.build ∧
    if (Where.mk c1.build).canUpdateItem base.pk base.rk then
      base.rk = [] → c1.build.emptyNameValue = c2.build.emptyNameValue
    else ∀ schema, cmd.Reads base schema → PlanQuiet schema.pk schema.rk c1.build c2.build

end BulkCmd

/-- A lookup goes on alike exactly if it does for every answer. -/
theorem resolveKeySchema_bind_eq_iff {α : Type} (table index : String)
    (f g : ResolvedKeySchema → α) :
    (resolveKeySchema table index >>= fun schema => (pure (f schema) : Exec α)) =
        (resolveKeySchema table index >>= fun schema => pure (g schema)) ↔
      ∀ (described : DescribeTableOut) (schema : ResolvedKeySchema),
        getKeySchema (fun _ => .ok described) table index = .ok schema → f schema = g schema := by
  have hprogram : ∀ (f : ResolvedKeySchema → α) (counter : Nat),
      (resolveKeySchema table index >>= fun schema => (pure (f schema) : Exec α)) counter =
        .call (.client (.describeTable table)) fun answer =>
          match answer with
          | .error e => .done (.error e, counter)
          | .ok described =>
              match getKeySchema (fun _ => .ok described) table index with
              | .error e => .done (.error e, counter)
              | .ok schema => .done (.ok (f schema), counter) := by
    intro f counter
    unfold resolveKeySchema
    rw [Exec.bind_assoc]
    show Program.call _ _ = Program.call _ _
    congr 1
    funext answer
    cases answer with
    | error e => rfl
    | ok described =>
        show (Exec.ofExcept (getKeySchema (fun _ => .ok described) table index) >>=
          fun schema => pure (f schema)) counter =
            match getKeySchema (fun _ => .ok described) table index with
            | .error e => .done (.error e, counter)
            | .ok schema => .done (.ok (f schema), counter)
        cases getKeySchema (fun _ => .ok described) table index with
        | error e => rfl
        | ok schema => rfl
  constructor
  · intro heq described schema hschema
    have hat := congrFun heq 0
    rw [hprogram, hprogram] at hat
    have hanswer := congrFun (eq_of_heq (Program.call.inj hat).2) (.ok described)
    simp only [hschema] at hanswer
    injection hanswer with hanswer
    exact Ending.ok.inj (Prod.mk.inj hanswer).1
  · intro hall
    funext counter
    rw [hprogram, hprogram]
    congr 1
    funext answer
    cases answer with
    | error e => rfl
    | ok described =>
        cases hschema : getKeySchema (fun _ => .ok described) table index with
        | error e => simp [hschema]
        | ok schema => simp [hschema, hall described schema hschema]

namespace BulkCmd

/-- The read of an enumeration by its plan. -/
def readAccess : Option QueryKeyPlan → WriteAccess
  | some plan => .query plan
  | none => .scan

theorem readAccess_injective {plan1 plan2 : Option QueryKeyPlan} :
    readAccess plan1 = readAccess plan2 ↔ plan1 = plan2 := by
  cases plan1 <;> cases plan2 <;> simp [readAccess]

theorem enumerated_eq_iff (cmd : BulkCmd) (base : ResolvedKeySchema) (w1 w2 : Where) :
    (readAccess <$> enumerationPlan cmd.table cmd.index (some w1) base : Exec WriteAccess) =
        readAccess <$> enumerationPlan cmd.table cmd.index (some w2) base ↔
      ∀ schema, cmd.Reads base schema →
        w1.planQuery schema.pk schema.rk = w2.planQuery schema.pk schema.rk := by
  unfold enumerationPlan Reads
  cases cmd.index with
  | none =>
      simp only [forall_eq]
      rw [← readAccess_injective]
      constructor
      · intro heq
        have hat := congrFun heq 0
        injection hat with hat
        exact Ending.ok.inj (Prod.mk.inj hat).1
      · intro heq
        show (pure (readAccess _) : Exec WriteAccess) = pure (readAccess _)
        exact congrArg pure heq
  | some index =>
      have hmap : ∀ w : Where, (readAccess <$> (do
            let schema ← resolveKeySchema cmd.table index
            return (some w).bind fun w => w.planQuery schema.pk schema.rk) : Exec WriteAccess) =
          resolveKeySchema cmd.table index >>= fun schema =>
            pure (readAccess (w.planQuery schema.pk schema.rk)) := by
        intro w
        show (resolveKeySchema cmd.table index >>= _) >>= _ = _
        rw [Exec.bind_assoc]
        rfl
      simp only [hmap, resolveKeySchema_bind_eq_iff, readAccess_injective]
      constructor
      · rintro hall schema ⟨described, hschema⟩
        exact hall described schema hschema
      · intro hall described schema hschema
        exact hall schema ⟨described, hschema⟩

/-- The key of a single write that both clauses pin: only the name of a missing
sort key is left to differ. -/
theorem singleKey_eq_iff {c1 c2 : SourceExpr .or} (h : Respelled c1 c2) {pk rk : List String}
    (hcan : (Where.mk c1.build).canUpdateItem pk rk = true)
    (hgains : gains (itemNames pk rk) c1.build c2.build = false) :
    keyOf ((Where.mk c1.build).getGudKey pk rk) = keyOf ((Where.mk c2.build).getGudKey pk rk) ↔
      (rk = [] → c1.build.emptyNameValue = c2.build.emptyNameValue) := by
  have hmatches := h.matches_build
  unfold Where.getGudKey
  rw [keyOf_getGudKey_eq_iff]
  match pk, rk, hcan with
  | [p], r :: rest, hcan =>
      apply iff_of_true
      · constructor
        · exact hmatches.firstEquality_eq (by simp [itemNames]) hgains
        · exact hmatches.firstEquality_eq (by simp [itemNames]) hgains
      · intro hrk
        cases hrk
  | [p], [], hcan =>
      have hpk : c1.build.firstEquality p = c2.build.firstEquality p :=
        hmatches.firstEquality_eq (by simp [itemNames]) hgains
      simp only [true_implies]
      exact and_iff_right hpk

/-- Respelled clauses get the same access exactly when the respelling is
quiet. -/
theorem respelled_access_iff {c1 c2 : SourceExpr .or} (h : Respelled c1 c2) (cmd : BulkCmd)
    (base : ResolvedKeySchema) :
    (cmd.on c1).access base = (cmd.on c2).access base ↔ cmd.AccessQuiet base c1 c2 := by
  have hmatches := h.matches_build
  have hpinned : ∀ c, (cmd.on c).pinned base =
      (some (Where.mk c.build)).filter fun w => w.canUpdateItem base.pk base.rk := by
    intro c
    cases cmd <;> rfl
  have hplan : ∀ c, enumerationPlan (cmd.on c).table (cmd.on c).index (cmd.on c).condition base =
      enumerationPlan cmd.table cmd.index (some ⟨c.build⟩) base := by
    intro c
    cases cmd <;> rfl
  have hone : ∀ c, (Where.mk c.build).canUpdateItem base.pk base.rk = true →
      (cmd.on c).access base =
        pure (.one (keyOf ((Where.mk c.build).getGudKey base.pk base.rk))) := by
    intro c hcan
    unfold access
    rw [hpinned, Option.filter, if_pos hcan]
  have hmany : ∀ c, (Where.mk c.build).canUpdateItem base.pk base.rk = false →
      (cmd.on c).access base =
        readAccess <$> enumerationPlan cmd.table cmd.index (some ⟨c.build⟩) base := by
    intro c hcan
    unfold access
    rw [hpinned, Option.filter, if_neg (by simp [hcan]), hplan]
    show _ >>= _ = _ >>= _
    congr 1
  -- a single write is no enumeration
  have hne : ∀ (key : ValueMap) (w : Where), (pure (.one key) : Exec WriteAccess) ≠
      readAccess <$> enumerationPlan cmd.table cmd.index (some w) base := by
    intro key w heq
    have hat := congrFun heq 0
    unfold enumerationPlan at hat
    cases hindex : cmd.index with
    | none =>
        rw [hindex] at hat
        injection hat with hat
        have haccess := Ending.ok.inj (Prod.mk.inj hat).1
        cases hplan : (some w).bind fun w => w.planQuery base.pk base.rk <;>
          simp [hplan, readAccess] at haccess
    | some index =>
        rw [hindex] at hat
        cases hat
  rw [AccessQuiet, ← hmatches.canUpdateItem_eq_iff]
  cases hcan1 : (Where.mk c1.build).canUpdateItem base.pk base.rk with
  | true =>
      cases hcan2 : (Where.mk c2.build).canUpdateItem base.pk base.rk with
      | true =>
          have hgains : gains (itemNames base.pk base.rk) c1.build c2.build = false :=
            (hmatches.canUpdateItem_eq_iff base.pk base.rk).mp (hcan1.trans hcan2.symm) (.inl hcan1)
          rw [hone c1 hcan1, hone c2 hcan2, pure_one_eq_iff, singleKey_eq_iff h hcan1 hgains]
          simp
      | false =>
          rw [hone c1 hcan1, hmany c2 hcan2]
          exact iff_of_false (hne _ _) (by simp)
  | false =>
      cases hcan2 : (Where.mk c2.build).canUpdateItem base.pk base.rk with
      | true =>
          rw [hmany c1 hcan1, hone c2 hcan2]
          exact iff_of_false (fun heq => hne _ _ heq.symm) (by simp)
      | false =>
          rw [hmany c1 hcan1, hmany c2 hcan2, enumerated_eq_iff]
          simp only [hmatches.planQuery_eq_iff, Bool.false_eq_true, if_false, true_and]

end BulkCmd

/-! ### The expressions of a write -/

def WriteTemplate.conditionExpression : WriteTemplate → Option String
  | .update r => r.conditionExpression
  | .delete r => r.conditionExpression

namespace BulkCmd

/-- The tokens of the condition of every write of the statement. -/
def conditionTokens (pk rk : String) : BulkCmd → Tokens
  | .update cmd => updateTokens cmd pk rk
  | .delete cmd => residualTokens pk rk cmd.condition

theorem writeTemplate_shows (cmd : BulkCmd) (c : SourceExpr .or) (base : ResolvedKeySchema)
    (p : String) :
    ∃ st, ((cmd.on c).writeTemplate base p).conditionExpression = nonEmpty
      (spell ((cmd.on c).conditionTokens (base.pk.headD "") (base.rk.headD "")) st).1 := by
  cases cmd with
  | update cmd =>
      have hclause : ({ cmd with condition := some ⟨c.build⟩ } : UpdateCmd).condition =
          parsedWhere (some c) := rfl
      exact ⟨_, makeUpdateRequest_condition hclause _ _ _⟩
  | delete cmd =>
      have hclause : ({ cmd with condition := some ⟨c.build⟩ } : DeleteCmd).condition =
          some ⟨c.build⟩ := rfl
      exact ⟨_, makeDeleteRequest_condition hclause _ _ _⟩

/-- The conditions are true of the same items if nothing was respelled on the
base key outside the ORs. -/
theorem respelled_sameItems {c1 c2 : SourceExpr .or} (h : Respelled c1 c2) (cmd : BulkCmd)
    {pk rk : String} (hquiet : WriteQuiet pk rk c1.build c2.build) :
    SameItems ((cmd.on c1).conditionTokens pk rk) ((cmd.on c2).conditionTokens pk rk) := by
  intro svc item
  have hg1 := c1.grown_build.1
  have hg2 := c2.grown_build.1
  have hpart := h.matches_build.condition_part_eq hquiet svc item
  cases cmd with
  | delete cmd =>
      show truth _ (c1.build.part _) = truth _ (c2.build.part _)
      rw [hg1.truth_part, hg2.truth_part, hpart]
  | update cmd =>
      simp only [conditionTokens, on, updateTokens, residualTokens]
      cases cmd.upsert with
      | true => rw [if_pos rfl, if_pos rfl, hg1.truth_part, hg2.truth_part, hpart]
      | false =>
          rw [if_neg (by simp), if_neg (by simp), hg1.truth_guard, hg2.truth_guard,
            h.matches_build.guardedHolds_eq hquiet]

/-- What an enumeration read shows of the clause. -/
def ReadShows (c : SourceExpr .or) (qplan : Option QueryKeyPlan) : WriteReadPlan → Prop
  | .query r => ∃ plan, qplan = some plan ∧ ShowsHalves c plan r
  | .scan r => qplan = none ∧ ShowsClause c r.filterExpression

theorem writeReadQuery_shows {c : SourceExpr .or} (table : String) (index : Option String)
    (plan : QueryKeyPlan) (basePk baseRk : String) (ratelimit : Bool) (st : SymbolTable) :
    ShowsHalves c plan
      (writeReadQuery table index ⟨c.build⟩ plan basePk baseRk ratelimit st).1 := by
  have hkey := Where.queryKeyConditionExpression_eq (w := ⟨c.build⟩) c.grown_build.1 plan
  have hfilter := Where.queryFilterExpression_eq (w := ⟨c.build⟩) c.grown_build.1 plan
  refine ⟨(projectBaseKeys basePk baseRk st).2, ?_, ?_⟩
  · simp only [writeReadQuery, hkey]
    rfl
  · simp only [writeReadQuery, hkey, hfilter]
    rfl

theorem readPlan_shows (cmd : BulkCmd) (c : SourceExpr .or) (base : ResolvedKeySchema)
    (qplan : Option QueryKeyPlan) (p : String) :
    ReadShows c qplan ((cmd.on c).readPlan base qplan p) := by
  have hcondition : (cmd.on c).condition = some ⟨c.build⟩ := by
    cases cmd <;> rfl
  unfold readPlan
  rw [hcondition]
  cases qplan with
  | none =>
      have hfilter := optionalScanFilter_eq (some c)
        (projectBaseKeys (base.pk.headD "") (base.rk.headD "") ⟨p, 1, 1, ∅, ∅⟩).2
      exact ⟨rfl, _, congrArg Prod.fst hfilter⟩
  | some plan => exact ⟨plan, rfl, writeReadQuery_shows _ _ plan _ _ _ _⟩

end BulkCmd

/-! ### Transactions -/

section Transactions

variable (describe : DescribeTable) (p : String)

/-- The key a transactional read sends, or why there is none. -/
def transactGetKey (cmd : SelectCmd) : Except Error ValueMap :=
  (buildTransactGet cmd describe p).map TransactGet.key

/-- The key a transactional write sends, or why there is none. -/
def BulkCmd.transactKey : BulkCmd → Except Error ValueMap
  | .update cmd => (buildTransactUpdate cmd describe p).map TransactUpdate.key
  | .delete cmd => (buildTransactDelete cmd describe p).map TransactDelete.key

/-- The condition a transactional write sends. -/
def BulkCmd.transactCondition : BulkCmd → Except Error (Option String)
  | .update cmd => (buildTransactUpdate cmd describe p).map TransactUpdate.conditionExpression
  | .delete cmd => (buildTransactDelete cmd describe p).map TransactDelete.conditionExpression

/-- The key a ConditionCheck sends, or why there is none. -/
def conditionCheckKey (cmd : SelectCmd) : Except Error ValueMap :=
  (buildTransactConditionCheck cmd describe p).map TransactConditionCheck.key

theorem transactGetKey_on (cmd : SelectCmd) (c : SourceExpr .or) :
    transactGetKey describe p (cmd.on c) =
      (getKeySchema describe cmd.table "").bind fun schema =>
        if cmd.index.isSome || !(Where.mk c.build).canGetitem schema.pk schema.rk then
          .error selectNotReducible
        else .ok (keyOf ((Where.mk c.build).getGudKey schema.pk schema.rk)) := by
  have hfields : (cmd.on c).index = cmd.index ∧ (cmd.on c).table = cmd.table ∧
      (cmd.on c).condition = some ⟨c.build⟩ := ⟨rfl, rfl, rfl⟩
  unfold transactGetKey buildTransactGet
  simp only [hfields]
  cases getKeySchema describe cmd.table "" with
  | error e => rfl
  | ok schema =>
      simp only [ok_bind, Except.bind]
      split <;> rfl

theorem transactKey_on (cmd : BulkCmd) (c : SourceExpr .or) :
    (cmd.on c).transactKey describe p =
      (getKeySchema describe cmd.table "").bind fun schema =>
        if (Where.mk c.build).canUpdateItem schema.pk schema.rk then
          .ok (keyOf ((Where.mk c.build).getGudKey schema.pk schema.rk))
        else .error notReducible := by
  cases cmd with
  | update cmd =>
      simp only [BulkCmd.transactKey, BulkCmd.on, buildTransactUpdate, BulkCmd.table]
      cases getKeySchema describe cmd.table "" with
      | error e => rfl
      | ok schema =>
          simp only [ok_bind, Except.bind]
          cases (Where.mk c.build).canUpdateItem schema.pk schema.rk <;> rfl
  | delete cmd =>
      simp only [BulkCmd.transactKey, BulkCmd.on, buildTransactDelete, BulkCmd.table]
      cases getKeySchema describe cmd.table "" with
      | error e => rfl
      | ok schema =>
          have hcan : (Where.mk c.build).canUpdateItem schema.pk schema.rk =
              (Where.mk c.build).canDeleteItem schema.pk schema.rk := rfl
          simp only [ok_bind, Except.bind, hcan]
          cases (Where.mk c.build).canDeleteItem schema.pk schema.rk <;> rfl

/-- A write in a transaction carries the condition it has on its own. -/
theorem transactCondition_on (cmd : BulkCmd) (c : SourceExpr .or) {condition : Option String}
    (h : (cmd.on c).transactCondition describe p = .ok condition) :
    ∃ schema, getKeySchema describe cmd.table "" = .ok schema ∧
      condition = ((cmd.on c).writeTemplate schema p).conditionExpression := by
  cases cmd with
  | update cmd =>
      simp only [BulkCmd.transactCondition, BulkCmd.on, buildTransactUpdate] at h
      cases hschema : getKeySchema describe cmd.table "" with
      | error e =>
          rw [hschema] at h
          cases h
      | ok schema =>
          refine ⟨schema, hschema, ?_⟩
          simp only [hschema, ok_bind] at h
          cases hcan : (Where.mk c.build).canUpdateItem schema.pk schema.rk with
          | false =>
              rw [hcan] at h
              cases h
          | true =>
              rw [hcan] at h
              cases h
              rfl
  | delete cmd =>
      simp only [BulkCmd.transactCondition, BulkCmd.on, buildTransactDelete] at h
      cases hschema : getKeySchema describe cmd.table "" with
      | error e =>
          rw [hschema] at h
          cases h
      | ok schema =>
          refine ⟨schema, hschema, ?_⟩
          simp only [hschema, ok_bind] at h
          cases hcan : (Where.mk c.build).canDeleteItem schema.pk schema.rk with
          | false =>
              rw [hcan] at h
              cases h
          | true =>
              rw [hcan] at h
              cases h
              rfl

theorem conditionCheckKey_on (cmd : SelectCmd) (c : SourceExpr .or) :
    conditionCheckKey describe p (cmd.on c) =
      match existsFunction cmd.existsMode with
      | none => .error selectNoExists
      | some _ => (getKeySchema describe cmd.table "").map fun schema =>
          keyOf ((Where.mk c.build).getGudKey schema.pk schema.rk) := by
  have hfields : (cmd.on c).existsMode = cmd.existsMode ∧ (cmd.on c).table = cmd.table ∧
      (cmd.on c).condition = some ⟨c.build⟩ := ⟨rfl, rfl, rfl⟩
  unfold conditionCheckKey buildTransactConditionCheck
  simp only [hfields]
  cases existsFunction cmd.existsMode with
  | none => rfl
  | some checkFunc =>
      cases getKeySchema describe cmd.table "" with
      | error e => rfl
      | ok schema => rfl

/-- The attributes that are checked. -/
def checkedAttributes (cmd : SelectCmd) (schema : ResolvedKeySchema) : List String :=
  if cmd.projection.isEmpty then [schema.pk.headD ""] else cmd.projection

/-- The filter of the clause against the whole key stands in front of the
checks. -/
theorem conditionCheck_shows {cmd : SelectCmd} {c : SourceExpr .or} {check : TransactConditionCheck}
    (h : buildTransactConditionCheck (cmd.on c) describe p = .ok check) :
    ∃ schema checkFunc, getKeySchema describe cmd.table "" = .ok schema ∧
      existsFunction cmd.existsMode = some checkFunc ∧
      check.conditionExpression =
        (let (filter, st) := spell (c.build.part (filterPart ⟨schema.pk, schema.rk⟩))
          ⟨p, 1, 1, ∅, ∅⟩
         (if filter = "" then filter else filter ++ " AND ") ++
          (existsChecks checkFunc (checkedAttributes cmd schema) st).1) := by
  have hfields : (cmd.on c).existsMode = cmd.existsMode ∧ (cmd.on c).table = cmd.table ∧
      (cmd.on c).condition = some ⟨c.build⟩ := ⟨rfl, rfl, rfl⟩
  unfold buildTransactConditionCheck at h
  simp only [hfields] at h
  cases hfunc : existsFunction cmd.existsMode with
  | none =>
      rw [hfunc] at h
      cases h
  | some checkFunc =>
      cases hschema : getKeySchema describe cmd.table "" with
      | error e =>
          rw [hfunc, hschema] at h
          cases h
      | ok schema =>
          rw [hfunc, hschema] at h
          cases h
          have hfilter := Where.queryFilterExpression_eq (w := ⟨c.build⟩) c.grown_build.1
            ⟨schema.pk, schema.rk⟩
          refine ⟨schema, checkFunc, rfl, rfl, ?_⟩
          show (conditionCheckExpression checkFunc _ ⟨c.build⟩ schema _).1 = _
          simp only [conditionCheckExpression, hfilter]
          rfl

variable {c1 c2 : SourceExpr .or} (h : Respelled c1 c2)

include h

theorem respelled_transactGet_iff (cmd : SelectCmd) :
    transactGetKey describe p (cmd.on c1) = transactGetKey describe p (cmd.on c2) ↔
      (cmd.index.isSome = true ∨ ∀ schema, getKeySchema describe cmd.table "" = .ok schema →
        ItemQuiet (fun e => (Where.mk e).canGetitem schema.pk schema.rk) schema.pk schema.rk
          c1.build c2.build) := by
  rw [transactGetKey_on, transactGetKey_on]
  cases hschema : getKeySchema describe cmd.table "" with
  | error e => exact iff_of_true rfl (.inr nofun)
  | ok schema =>
      have hcan := h.matches_build.canGetitem_eq_iff schema.pk schema.rk
      simp only [Except.bind, Except.ok.injEq, forall_eq']
      rw [← hcan]
      cases hindex : cmd.index.isSome with
      | true => simp
      | false =>
          cases hcan1 : (Where.mk c1.build).canGetitem schema.pk schema.rk with
          | false => cases hcan2 : (Where.mk c2.build).canGetitem schema.pk schema.rk <;> simp
          | true =>
              cases hcan2 : (Where.mk c2.build).canGetitem schema.pk schema.rk with
              | false => simp
              | true =>
                  have hgains := hcan.mp (hcan1.trans hcan2.symm) (.inl hcan1)
                  have hkey := (keyOf_getGudKey_eq_iff _ _).mpr (getItem_keyQuiet h hcan1 hgains)
                  unfold Where.getGudKey
                  simpa using hkey

theorem respelled_transactKey_iff (cmd : BulkCmd) :
    (cmd.on c1).transactKey describe p = (cmd.on c2).transactKey describe p ↔
      ∀ schema, getKeySchema describe cmd.table "" = .ok schema →
        ItemQuiet (fun e => (Where.mk e).canUpdateItem schema.pk schema.rk) schema.pk schema.rk
            c1.build c2.build ∧
          ((Where.mk c1.build).canUpdateItem schema.pk schema.rk = true → schema.rk = [] →
            c1.build.emptyNameValue = c2.build.emptyNameValue) := by
  rw [transactKey_on, transactKey_on]
  cases hschema : getKeySchema describe cmd.table "" with
  | error e => exact iff_of_true rfl nofun
  | ok schema =>
      have hcan := h.matches_build.canUpdateItem_eq_iff schema.pk schema.rk
      simp only [Except.bind, Except.ok.injEq, forall_eq']
      rw [← hcan]
      cases hcan1 : (Where.mk c1.build).canUpdateItem schema.pk schema.rk with
      | false => cases hcan2 : (Where.mk c2.build).canUpdateItem schema.pk schema.rk <;> simp
      | true =>
          cases hcan2 : (Where.mk c2.build).canUpdateItem schema.pk schema.rk with
          | false => simp
          | true =>
              have hgains := hcan.mp (hcan1.trans hcan2.symm) (.inl hcan1)
              simpa using BulkCmd.singleKey_eq_iff h hcan1 hgains

/-- A ConditionCheck takes the first equality on each key attribute, wherever it
stands. -/
theorem respelled_conditionCheck_iff (cmd : SelectCmd) :
    conditionCheckKey describe p (cmd.on c1) = conditionCheckKey describe p (cmd.on c2) ↔
      (existsFunction cmd.existsMode = none ∨
        ∀ schema, getKeySchema describe cmd.table "" = .ok schema →
          ∀ name ∈ [schema.pk.headD "", schema.rk.headD ""], gains [name] c1.build c2.build = true →
            c1.build.firstEquality name = c2.build.firstEquality name) := by
  have hquiet : ∀ pk rk, KeyQuiet pk rk c1.build c2.build ↔
      ∀ name ∈ [pk, rk], gains [name] c1.build c2.build = true →
        c1.build.firstEquality name = c2.build.firstEquality name := by
    intro pk rk
    constructor
    · rintro ⟨hpk, hrk⟩ name hname -
      rcases List.mem_pair.mp hname with rfl | rfl
      · exact hpk
      · exact hrk
    · intro hall
      have hone : ∀ name ∈ [pk, rk], c1.build.firstEquality name = c2.build.firstEquality name := by
        intro name hname
        cases hgains : gains [name] c1.build c2.build with
        | true => exact hall name hname hgains
        | false => exact h.matches_build.firstEquality_eq (List.mem_singleton_self name) hgains
      exact ⟨hone pk (by simp), hone rk (by simp)⟩
  rw [conditionCheckKey_on, conditionCheckKey_on]
  cases existsFunction cmd.existsMode with
  | none => simp
  | some checkFunc =>
      cases hschema : getKeySchema describe cmd.table "" with
      | error e => simp [Except.map]
      | ok schema =>
          have hkey := keyOf_getGudKey_eq_iff (e := c1.build) (f := c2.build)
            (schema.pk.headD "") (schema.rk.headD "")
          unfold Where.getGudKey
          rw [hquiet] at hkey
          simpa [Except.map] using hkey

end Transactions

/-! ### Every statement -/

/-- The requests of the statement spell the expressions compared here: the
condition of its writes, alone or in a transaction, and those of its reads. -/
def BulkCmd.Spells (cmd : BulkCmd) (c : SourceExpr .or) : Prop :=
  (∀ (base : ResolvedKeySchema) (p : String),
    (∃ st, ((cmd.on c).writeTemplate base p).conditionExpression = nonEmpty
      (spell ((cmd.on c).conditionTokens (base.pk.headD "") (base.rk.headD "")) st).1) ∧
    ∀ qplan, BulkCmd.ReadShows c qplan ((cmd.on c).readPlan base qplan p)) ∧
  ∀ (describe : DescribeTable) (p : String) (condition : Option String),
    (cmd.on c).transactCondition describe p = .ok condition →
      ∃ schema, getKeySchema describe cmd.table "" = .ok schema ∧
        condition = ((cmd.on c).writeTemplate schema p).conditionExpression

theorem BulkCmd.spells (cmd : BulkCmd) (c : SourceExpr .or) : cmd.Spells c :=
  ⟨fun base p => ⟨cmd.writeTemplate_shows c base p, fun qplan => cmd.readPlan_shows c base qplan p⟩,
    fun describe p _ h => transactCondition_on describe p cmd c h⟩

/-- What a respelling leaves unchanged: the choices and keys exactly where it is
quiet for them, the expressions of reads always, and the condition of a write
where nothing was respelled on the base key outside the ORs. -/
theorem Respelled.unchanged_iff {c1 c2 : SourceExpr .or} (h : Respelled c1 c2) :
    (∀ (cmd : SelectCmd) (describe : DescribeTable) (p : String),
      (SelectsAlike SameItems c1 c2 (selectQueryPlan cmd describe c1)
          (planSelect (cmd.on c1) describe p) (planSelect (cmd.on c2) describe p) ↔
        SelectQuiet cmd describe c1 c2) ∧
      (transactGetKey describe p (cmd.on c1) = transactGetKey describe p (cmd.on c2) ↔
        (cmd.index.isSome = true ∨ ∀ schema, getKeySchema describe cmd.table "" = .ok schema →
          ItemQuiet (fun e => (Where.mk e).canGetitem schema.pk schema.rk) schema.pk schema.rk
            c1.build c2.build)) ∧
      (conditionCheckKey describe p (cmd.on c1) = conditionCheckKey describe p (cmd.on c2) ↔
        (existsFunction cmd.existsMode = none ∨
          ∀ schema, getKeySchema describe cmd.table "" = .ok schema →
            ∀ name ∈ [schema.pk.headD "", schema.rk.headD ""],
              gains [name] c1.build c2.build = true →
                c1.build.firstEquality name = c2.build.firstEquality name)) ∧
      ∀ (c : SourceExpr .or) (check : TransactConditionCheck),
        buildTransactConditionCheck (cmd.on c) describe p = .ok check →
          ∃ schema checkFunc, getKeySchema describe cmd.table "" = .ok schema ∧
            existsFunction cmd.existsMode = some checkFunc ∧
            check.conditionExpression =
              (let (filter, st) := spell (c.build.part (filterPart ⟨schema.pk, schema.rk⟩))
                ⟨p, 1, 1, ∅, ∅⟩
               (if filter = "" then filter else filter ++ " AND ") ++
                (existsChecks checkFunc (checkedAttributes cmd schema) st).1)) ∧
    (∀ cmd : BulkCmd,
      (∀ c : SourceExpr .or, cmd.Spells c) ∧
      (∀ base : ResolvedKeySchema,
        (cmd.on c1).access base = (cmd.on c2).access base ↔ cmd.AccessQuiet base c1 c2) ∧
      (∀ (describe : DescribeTable) (p : String),
        (cmd.on c1).transactKey describe p = (cmd.on c2).transactKey describe p ↔
          ∀ schema, getKeySchema describe cmd.table "" = .ok schema →
            ItemQuiet (fun e => (Where.mk e).canUpdateItem schema.pk schema.rk) schema.pk schema.rk
                c1.build c2.build ∧
              ((Where.mk c1.build).canUpdateItem schema.pk schema.rk = true → schema.rk = [] →
                c1.build.emptyNameValue = c2.build.emptyNameValue)) ∧
      ∀ pk rk : String, WriteQuiet pk rk c1.build c2.build →
        SameItems ((cmd.on c1).conditionTokens pk rk) ((cmd.on c2).conditionTokens pk rk)) ∧
    (∀ ks : KeySchemaView,
      SameItems (c1.build.part (keyConditionPart ks)) (c2.build.part (keyConditionPart ks)) ∧
        SameItems (c1.build.part (filterPart ks)) (c2.build.part (filterPart ks)) ∧
        SameChecked (c1.build.part (filterPart ks)) (c2.build.part (filterPart ks))) ∧
    SameItems c1.build.tokens c2.build.tokens := by
  have hg1 := c1.grown_build.1
  have hg2 := c2.grown_build.1
  refine ⟨fun cmd describe p => ⟨?_, ?_, ?_, ?_⟩, fun cmd => ⟨cmd.spells, ?_, ?_, ?_⟩, ?_, ?_⟩
  · exact respelled_planSelect_iff h cmd describe p
  · exact respelled_transactGet_iff describe p h cmd
  · exact respelled_conditionCheck_iff describe p h cmd
  · exact fun c check hcheck => conditionCheck_shows describe p hcheck
  · exact cmd.respelled_access_iff h
  · exact fun describe p => respelled_transactKey_iff describe p h cmd
  · exact fun pk rk hquiet => cmd.respelled_sameItems h hquiet
  · intro ks
    obtain ⟨hkey, hfilter⟩ := h.matches_build.sameItems_halves hg1 hg2 ks
    exact ⟨hkey, hfilter, h.matches_build.sameChecked_filter hg1 hg2 ks⟩
  · exact h.matches_build.sameItems_tokens hg1 hg2

section Example

/-- `pk = 1 AND x <> 2` -/
def unequalClause : SourceExpr .or :=
  .ofAnd (.and (.ofNot (equals "pk" "1")) (.element (.comparison "x" (.op .notEqual) (.N "2"))))

/-- `pk = 1 AND NOT (x = 2)` -/
def notEqualClause : SourceExpr .or :=
  .ofAnd (.and (.ofNot (equals "pk" "1"))
    (.not (.paren (.ofAnd (.ofNot (equals "x" "2"))))))

theorem respelled_notEqualClause : Respelled unequalClause notEqualClause :=
  .ofAnd (.and (.ofNot (.same _)) (.notEqual "x" (.N "2")))

theorem notEqualClause_alike :
    SelectsAlike SameItems unequalClause notEqualClause
      (selectQueryPlan { table := "t" } reorderedTable unequalClause)
      (planSelect (SelectCmd.on { table := "t" } unequalClause) reorderedTable "aaa")
      (planSelect (SelectCmd.on { table := "t" } notEqualClause) reorderedTable "aaa") := by
  refine ((respelled_notEqualClause.unchanged_iff.1 { table := "t" } reorderedTable "aaa").1).mpr ?_
  refine .inr (.inr fun schema hschema => ?_)
  cases hschema
  refine ⟨fun _ _ => by decide, fun _ plan hplan => ?_⟩
  have hplan1 : (Where.mk unequalClause.build).planQuery ["pk"] ["sk"] = some ⟨["pk"], []⟩ := by
    decide
  have hplan2 : (Where.mk notEqualClause.build).planQuery ["pk"] ["sk"] = some ⟨["pk"], []⟩ := by
    decide
  have heq : plan = ⟨["pk"], []⟩ := by
    rcases hplan with hplan | hplan
    · exact Option.some.inj (hplan.symm.trans hplan1)
    · exact Option.some.inj (hplan.symm.trans hplan2)
  rw [heq]
  exact ⟨by decide, by decide⟩

/-- `pk = 1 AND sk <> 5` -/
def unequalSortKey : SourceExpr .or :=
  .ofAnd (.and (.ofNot (equals "pk" "1")) (.element (.comparison "sk" (.op .notEqual) (.N "5"))))

/-- `pk = 1 AND sk != 5` -/
def bangSortKey : SourceExpr .or :=
  .ofAnd (.and (.ofNot (equals "pk" "1")) (.element (.comparison "sk" .bangEqual (.N "5"))))

/-- On a sort key `<>` is planned as a Query and `!=` as a Scan. -/
theorem bangSortKey_not_alike :
    Respelled unequalSortKey bangSortKey ∧
    ¬ SelectsAlike SameItems unequalSortKey bangSortKey
      (selectQueryPlan { table := "t" } reorderedTable unequalSortKey)
      (planSelect (SelectCmd.on { table := "t" } unequalSortKey) reorderedTable "aaa")
      (planSelect (SelectCmd.on { table := "t" } bangSortKey) reorderedTable "aaa") := by
  have hrespelled : Respelled unequalSortKey bangSortKey :=
    .ofAnd (.and (.ofNot (.same _)) (.bang "sk" (.N "5")))
  refine ⟨hrespelled, fun halike => ?_⟩
  rcases (respelled_planSelect_iff hrespelled _ _ _).mp halike with hnear | hvector | hquiet
  · cases hnear
  · cases hvector
  · have hplan : (Where.mk unequalSortKey.build).planQuery ["pk"] ["sk"] =
        some ⟨["pk"], ["sk"]⟩ := by decide
    have hloses := ((hquiet ⟨["pk"], ["sk"]⟩ rfl).2 (by decide) _ (.inl hplan)).2
    revert hloses
    decide

end Example

end DdbShell
